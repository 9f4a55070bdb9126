import Andren.Machine.Basic
import Mathlib.Algebra.Ring.Nat
import Mathlib.Data.List.Basic

/-!
# The circular queue

`CircularQueue` keeps its elements in a vector, read cyclically from `head` up
to `current`, and always leaves one slot free: a full ring would look like an
empty one. Every access to the vector is checked; an index out of range is no
result. `add_ok` and `pop_ok` say that on a well-formed ring no access is out
of range and what the operation does to the contents; from them, any sequence
of operations on any number of queues behaves as on lists.
-/

namespace Andren.Base

open Machines

structure CircularQueue (T : Type) where
  vec : List T
  current : Nat
  head : Nat

namespace CircularQueue

variable {T : Type} [Inhabited T]

-- ---------------------------------------------------------------------------
-- The vector
-- ---------------------------------------------------------------------------

def store (vec : List T) (i : Nat) (t : T) : Option (List T) :=
  if i < vec.length then some (vec.set i t) else none

def resize (vec : List T) (n : Nat) : List T :=
  vec.take n ++ List.replicate (n - vec.length) default

def last (vec : List T) : Nat :=
  if vec.length = 0 then 2 ^ 64 - 1 else vec.length - 1

/-- `for (i = lo; i < lo + n; i++) tmp.emplace_back(std::move(vec[i]))`. -/
def moveRange (vec : List T) (lo : Nat) : Nat → List T → Option (List T)
  | 0, tmp => some tmp
  | n + 1, tmp => do
    let tmp ← moveRange vec lo n tmp
    let t ← vec[lo + n]?
    pure (tmp ++ [t])

-- ---------------------------------------------------------------------------
-- The class
-- ---------------------------------------------------------------------------

def new : CircularQueue T := ⟨resize [] 16, 0, 0⟩

def newSized (presize : Nat) : CircularQueue T := ⟨resize [] (max presize 16), 0, 0⟩

def empty (q : CircularQueue T) : Bool := q.head == q.current

def capacity (q : CircularQueue T) : Nat := q.vec.length

def size (q : CircularQueue T) : Nat :=
  if q.current ≥ q.head then q.current - q.head else q.capacity - (q.head - q.current)

def front (q : CircularQueue T) : Option T := q.vec[q.head]?

def clear (q : CircularQueue T) : CircularQueue T := ⟨resize [] q.vec.length, 0, 0⟩

def add (q : CircularQueue T) (v : T) : Option (CircularQueue T) := do
  let vec ← store q.vec q.current v
  if q.head < q.current then
    if q.current = last vec then
      if q.head = 0 then
        -- the vector is full from its first slot on: grow in place
        pure { q with vec := resize vec (vec.length * 2), current := q.current + 1 }
      else
        pure { q with vec, current := 0 }
    else
      pure { q with vec, current := q.current + 1 }
  else if q.head = q.current then
    if q.current = last vec then
      pure { q with vec, current := 0 }
    else
      pure { q with vec, current := q.current + 1 }
  else
    if q.current = q.head - 1 then
      -- the ring closed up behind the head: rotate it to the front and double it
      let tmp ← moveRange vec q.head (vec.length - q.head) []
      let tmp ← moveRange vec 0 q.head tmp
      pure { vec := resize tmp (max (tmp.length * 2) 1), current := vec.length, head := 0 }
    else
      pure { q with vec, current := q.current + 1 }

def pop (q : CircularQueue T) : Option (Option T × CircularQueue T) :=
  if q.head < q.current then do
    let v ← q.vec[q.head]?
    pure (some v, { q with head := q.head + 1 })
  else if q.head = q.current then
    pure (none, q)
  else do
    let v ← q.vec[q.head]?
    if q.head = last q.vec then
      pure (some v, { q with head := 0 })
    else
      pure (some v, { q with head := q.head + 1 })

def contents (q : CircularQueue T) : List T :=
  if q.head ≤ q.current then (q.vec.take q.current).drop q.head
  else q.vec.drop q.head ++ q.vec.take q.current

/-- Both marks are indices of the vector, which is never shorter than the
constructors make it: in a vector of one slot `add` could not keep one free. -/
structure Wf (q : CircularQueue T) : Prop where
  length_ge : 16 ≤ q.vec.length
  head_lt : q.head < q.vec.length
  current_lt : q.current < q.vec.length

-- ---------------------------------------------------------------------------
-- One operation
-- ---------------------------------------------------------------------------

omit [Inhabited T] in
theorem store_eq {vec : List T} (h : i < vec.length) (t : T) : store vec i t = some (vec.set i t) :=
  if_pos h

omit [Inhabited T] in
theorem last_eq {vec : List T} (h : 0 < vec.length) : last vec = vec.length - 1 :=
  if_neg (by omega)

omit [Inhabited T] in
theorem moveRange_eq {vec : List T} (h : lo + n ≤ vec.length) (tmp : List T) :
    moveRange vec lo n tmp = some (tmp ++ (vec.drop lo).take n) := by
  induction n with
  | zero => simp [moveRange]
  | succ n ih =>
    have hget : vec[lo + n]? = some vec[lo + n] := List.getElem?_eq_getElem (by omega)
    have htake : (vec.drop lo).take (n + 1) = (vec.drop lo).take n ++ [vec[lo + n]] := by
      rw [List.take_add_one, List.getElem?_drop, hget]
      rfl
    simp [moveRange, ih (by omega), hget, htake]

theorem length_resize (vec : List T) (n : Nat) : (resize vec n).length = n := by
  simp only [resize, List.length_append, List.length_take, List.length_replicate]
  omega

theorem take_resize {vec : List T} (hk : k ≤ vec.length) (hn : k ≤ n) :
    (resize vec n).take k = vec.take k := by
  rw [resize, List.take_append_of_le_length (by simp; omega), List.take_take, Nat.min_eq_left hn]

omit [Inhabited T] in
theorem take_set_succ {vec : List T} (h : i < vec.length) (v : T) :
    (vec.set i v).take (i + 1) = vec.take i ++ [v] := by
  rw [List.take_add_one, List.take_set_of_le (Nat.le_refl i)]
  simp [h]

omit [Inhabited T] in
theorem contents_of_le {q : CircularQueue T} (h : q.head ≤ q.current) :
    q.contents = (q.vec.take q.current).drop q.head := if_pos h

omit [Inhabited T] in
theorem contents_of_gt {q : CircularQueue T} (h : q.current < q.head) :
    q.contents = q.vec.drop q.head ++ q.vec.take q.current := if_neg (by omega)

omit [Inhabited T] in
theorem drop_take_set_succ {vec : List T} (hi : i < vec.length) (hh : lo ≤ i) (v : T) :
    ((vec.set i v).take (i + 1)).drop lo = (vec.take i).drop lo ++ [v] := by
  rw [take_set_succ hi, List.drop_append_of_le_length (by simp; omega)]

omit [Inhabited T] in
theorem contents_store {q : CircularQueue T} (hw : q.Wf) (hle : q.head ≤ q.current) (v : T) :
    q.contents ++ [v] = ((q.vec.set q.current v).take (q.current + 1)).drop q.head := by
  rw [contents_of_le hle, drop_take_set_succ hw.current_lt hle]

omit [Inhabited T] in
theorem Wf.store {q : CircularQueue T} (hw : q.Wf) (hi : i < q.vec.length) (v : T) :
    Wf { q with vec := q.vec.set q.current v, current := i } where
  length_ge := by simpa using hw.length_ge
  head_lt := by simpa using hw.head_lt
  current_lt := by simpa using hi

omit [Inhabited T] in
theorem store_next {q : CircularQueue T} (hw : q.Wf) (hle : q.head ≤ q.current)
    (hend : q.current ≠ q.vec.length - 1) (v : T) :
    let q' : CircularQueue T := { q with vec := q.vec.set q.current v, current := q.current + 1 }
    q'.Wf ∧ q'.contents = q.contents ++ [v] := by
  have hc := hw.current_lt
  refine ⟨hw.store (by omega) v, ?_⟩
  rw [contents_of_le (by simp only; omega), contents_store hw hle]

omit [Inhabited T] in
/-- Behind the last slot the mark moves to the first, which is free. -/
theorem store_wrap {q : CircularQueue T} (hw : q.Wf) (hle : q.head ≤ q.current)
    (hend : q.current = q.vec.length - 1) (hroom : 0 < q.head) (v : T) :
    let q' : CircularQueue T := { q with vec := q.vec.set q.current v, current := 0 }
    q'.Wf ∧ q'.contents = q.contents ++ [v] := by
  have hc := hw.current_lt
  have hwhole : (q.vec.set q.current v).take (q.current + 1) = q.vec.set q.current v :=
    List.take_of_length_le (by rw [List.length_set]; omega)
  refine ⟨hw.store (by omega) v, ?_⟩
  rw [contents_of_gt hroom, contents_store hw hle, hwhole, List.take_zero, List.append_nil]

theorem add_ok {q : CircularQueue T} (hw : q.Wf) (v : T) :
    ∃ q', q.add v = some q' ∧ q'.Wf ∧ q'.contents = q.contents ++ [v] := by
  obtain ⟨hlen, hh, hc⟩ := id hw
  have hset : (q.vec.set q.current v).length = q.vec.length := List.length_set
  have hlast : last (q.vec.set q.current v) = q.vec.length - 1 := by
    rw [last_eq (by omega), hset]
  simp only [add, store_eq hc, Option.bind_eq_bind, Option.bind_some, hlast, Option.pure_def]
  rcases Nat.lt_trichotomy q.head q.current with hlt | heq | hgt
  · rw [if_pos hlt]
    have hle : q.head ≤ q.current := Nat.le_of_lt hlt
    by_cases hend : q.current = q.vec.length - 1
    · rw [if_pos hend]
      by_cases hzero : q.head = 0
      · -- full from slot 0 on: the new slots follow the last element
        refine ⟨_, if_pos hzero, ⟨?_, ?_, ?_⟩, ?_⟩
        · simp only [length_resize, hset]; omega
        · simp only [length_resize, hset]; omega
        · simp only [length_resize, hset]; omega
        · rw [contents_of_le (by simp only; omega), contents_store hw hle,
            take_resize (by simp only [hset]; omega) (by simp only [hset]; omega)]
      · exact ⟨_, if_neg hzero, store_wrap hw hle hend (Nat.pos_of_ne_zero hzero) v⟩
    · exact ⟨_, if_neg hend, store_next hw hle hend v⟩
  · rw [if_neg (by omega), if_pos heq]
    have hle : q.head ≤ q.current := Nat.le_of_eq heq
    by_cases hend : q.current = q.vec.length - 1
    · exact ⟨_, if_pos hend, store_wrap hw hle hend (by omega) v⟩
    · exact ⟨_, if_neg hend, store_next hw hle hend v⟩
  · rw [if_neg (by omega), if_neg (by omega)]
    have happ : q.contents ++ [v] =
        (q.vec.set q.current v).drop q.head ++ (q.vec.set q.current v).take (q.current + 1) := by
      rw [contents_of_gt hgt, take_set_succ hc, List.drop_set_of_lt hgt, List.append_assoc]
    by_cases hfull : q.current = q.head - 1
    · -- every slot is taken: what `tmp` holds is the rotated vector
      have hrange : moveRange (q.vec.set q.current v) q.head (q.vec.length - q.head) [] =
          some ((q.vec.set q.current v).drop q.head) := by
        rw [moveRange_eq (by omega), List.nil_append, List.take_of_length_le (by simp)]
      have hrange' := moveRange_eq (by omega : 0 + q.head ≤ (q.vec.set q.current v).length)
        ((q.vec.set q.current v).drop q.head)
      rw [List.drop_zero] at hrange'
      simp only [if_pos hfull, hset, hrange, hrange', Option.bind_some]
      have hone : q.head = q.current + 1 := by omega
      refine ⟨_, rfl, ⟨?_, ?_, ?_⟩, ?_⟩
      · simp only [length_resize, List.length_append, List.length_drop, List.length_take, hset]
        omega
      · simp only [length_resize, List.length_append, List.length_drop, List.length_take, hset]
        omega
      · simp only [length_resize, List.length_append, List.length_drop, List.length_take, hset]
        omega
      · rw [contents_of_le (Nat.zero_le _), take_resize, happ, hone]
        · exact List.take_of_length_le (by simp; omega)
        · simp; omega
        · simp; omega
    · refine ⟨_, if_neg hfull, hw.store (by omega) v, ?_⟩
      rw [contents_of_gt (by simp only; omega), happ]

omit [Inhabited T] in
theorem pop_ok {q : CircularQueue T} (hw : q.Wf) :
    ∃ q', q.pop = some (q.contents.head?, q') ∧ q'.Wf ∧ q'.contents = q.contents.tail := by
  obtain ⟨hlen, hh, hc⟩ := hw
  have hget : q.vec[q.head]? = some q.vec[q.head] := List.getElem?_eq_getElem hh
  rcases Nat.lt_trichotomy q.head q.current with hlt | heq | hgt
  · have hcons : q.contents = q.vec[q.head] :: (q.vec.take q.current).drop (q.head + 1) := by
      rw [contents_of_le (Nat.le_of_lt hlt), List.drop_eq_getElem_cons (by simp; omega)]
      simp
    refine ⟨{ q with head := q.head + 1 }, ?_, ⟨hlen, by simp only; omega, hc⟩, ?_⟩
    · simp [pop, hlt, hget, hcons]
    · rw [contents_of_le (by simp only; omega), hcons]
      rfl
  · have hnil : q.contents = [] := by
      rw [contents_of_le (Nat.le_of_eq heq), List.drop_eq_nil_iff]
      simp; omega
    exact ⟨q, by simp [pop, heq, hnil], ⟨hlen, hh, hc⟩, by simp [hnil]⟩
  · have hcons : q.contents = q.vec[q.head] :: (q.vec.drop (q.head + 1) ++ q.vec.take q.current) := by
      rw [contents_of_gt hgt, List.drop_eq_getElem_cons hh]
      rfl
    have hlast : last q.vec = q.vec.length - 1 := last_eq (by omega)
    have hpop : q.pop = some (q.contents.head?,
        if q.head = q.vec.length - 1 then { q with head := 0 } else { q with head := q.head + 1 }) := by
      rw [pop, if_neg (by omega), if_neg (by omega), hget, hlast, hcons]
      by_cases hend : q.head = q.vec.length - 1 <;> simp [hend]
    refine ⟨_, hpop, ?_⟩
    by_cases hend : q.head = q.vec.length - 1
    · rw [if_pos hend]
      refine ⟨⟨hlen, by simp only; omega, hc⟩, ?_⟩
      have hnil : q.vec.drop (q.head + 1) = [] := List.drop_eq_nil_of_le (by omega)
      rw [contents_of_le (Nat.zero_le _), hcons, hnil]
      rfl
    · rw [if_neg hend]
      refine ⟨⟨hlen, by simp only; omega, hc⟩, ?_⟩
      rw [contents_of_gt (by simp only; omega), hcons]
      rfl

theorem new_ok : (new : CircularQueue T).Wf ∧ (new : CircularQueue T).contents = [] :=
  ⟨⟨by simp [new, length_resize], by simp [new, length_resize], by simp [new, length_resize]⟩, rfl⟩

theorem newSized_ok (n : Nat) :
    (newSized n : CircularQueue T).Wf ∧ (newSized n : CircularQueue T).contents = [] := by
  refine ⟨⟨?_, ?_, ?_⟩, rfl⟩ <;> simp only [newSized, length_resize] <;> omega

theorem clear_ok {q : CircularQueue T} (hw : q.Wf) : q.clear.Wf ∧ q.clear.contents = [] := by
  obtain ⟨hlen, hh, hc⟩ := hw
  refine ⟨⟨?_, ?_, ?_⟩, rfl⟩ <;> simp only [clear, length_resize] <;> omega

omit [Inhabited T] in
theorem length_contents {q : CircularQueue T} (hw : q.Wf) : q.contents.length = q.size := by
  obtain ⟨hlen, hh, hc⟩ := hw
  rcases Nat.lt_or_ge q.current q.head with hgt | hle
  · rw [contents_of_gt hgt, size, if_neg (by omega), capacity]
    simp only [List.length_append, List.length_drop, List.length_take]
    omega
  · rw [contents_of_le hle, size, if_pos hle]
    simp only [List.length_drop, List.length_take]
    omega

omit [Inhabited T] in
/-- The marks meet only when the ring is empty: a full one keeps a slot free. -/
theorem empty_eq {q : CircularQueue T} (hw : q.Wf) : q.empty = q.contents.isEmpty := by
  have hlen := length_contents hw
  obtain ⟨-, hh, hc⟩ := hw
  rw [Bool.eq_iff_iff, List.isEmpty_iff_length_eq_zero, hlen, empty, beq_iff_eq]
  simp only [size, capacity]
  split <;> omega

omit [Inhabited T] in
theorem front_eq {q : CircularQueue T} (hw : q.Wf) (hne : q.contents ≠ []) :
    q.front = q.contents.head? := by
  obtain ⟨q', hpop, -, -⟩ := pop_ok hw
  obtain ⟨x, rest, hx⟩ := List.exists_cons_of_ne_nil hne
  have hh := List.getElem?_eq_getElem hw.head_lt
  simp only [pop, hx, List.head?_cons, hh, Option.bind_eq_bind, Option.bind_some,
    Option.pure_def] at hpop ⊢
  rw [front, hh]
  split at hpop
  · exact congrArg Prod.fst (Option.some.inj hpop)
  · split at hpop
    · cases hpop
    · split at hpop <;> exact congrArg Prod.fst (Option.some.inj hpop)

end CircularQueue

-- ---------------------------------------------------------------------------
-- Any number of queues
-- ---------------------------------------------------------------------------

open CircularQueue

inductive CircleOp (T : Type)
  | new (x : Nat)
  | newSized (x presize : Nat)
  | copyNew (x src : Nat)
  | copyAssign (x src : Nat)
  | pushBack (x : Nat) (value : T)
  | emplaceBack (x : Nat) (value : T)
  | take (x : Nat)
  | popFront (x : Nat)
  | front (x : Nat)
  | clear (x : Nat)
  | swap (x y : Nat)
  | size (x : Nat)
  | empty (x : Nat)

inductive CircleRet (T : Type)
  | none
  | elem (v : Option T)
  | value (v : T)
  | count (n : Nat)
  | flag (b : Bool)

variable {T : Type} [Inhabited T]

/-- The queues of a program. A call is refused when a queue it names does not
exist (or, for a constructor, exists), and when an index is out of range. -/
def circleQueues (T : Type) [Inhabited T] :
    Machine (Nat → Option (CircularQueue T)) (CircleOp T) (CircleRet T) where
  init := fun _ => none
  step s
    | .new x => if (s x).isNone then some (Function.update s x (some new), [.none]) else none
    | .newSized x n =>
      if (s x).isNone then some (Function.update s x (some (newSized n)), [.none]) else none
    | .copyNew x src => do
      let q ← s src
      if (s x).isNone then some (Function.update s x (some q), [.none]) else none
    | .copyAssign x src => do
      let q ← s src
      let _ ← s x
      pure (Function.update s x (some q), [.none])
    | .pushBack x v | .emplaceBack x v => do
      let q ← (← s x).add v
      pure (Function.update s x (some q), [.none])
    | .take x | .popFront x => do
      let (v, q) ← (← s x).pop
      pure (Function.update s x (some q), [.elem v])
    | .front x => do
      let v ← (← s x).front
      pure (s, [.value v])
    | .clear x => do
      let q ← s x
      pure (Function.update s x (some q.clear), [.none])
    | .swap x y => do
      let p ← s x
      let q ← s y
      pure (Function.update (Function.update s x (some q)) y (some p), [.none])
    | .size x => do
      let q ← s x
      pure (s, [.count q.size])
    | .empty x => do
      let q ← s x
      pure (s, [.flag q.empty])

/-- The same calls on lists. `front` of an empty list is refused. -/
def fifoLists (T : Type) : Machine (Nat → Option (List T)) (CircleOp T) (CircleRet T) where
  init := fun _ => none
  step s
    | .new x | .newSized x _ =>
      if (s x).isNone then some (Function.update s x (some []), [.none]) else none
    | .copyNew x src => do
      let l ← s src
      if (s x).isNone then some (Function.update s x (some l), [.none]) else none
    | .copyAssign x src => do
      let l ← s src
      let _ ← s x
      pure (Function.update s x (some l), [.none])
    | .pushBack x v | .emplaceBack x v => do
      let l ← s x
      pure (Function.update s x (some (l ++ [v])), [.none])
    | .take x | .popFront x => do
      let l ← s x
      pure (Function.update s x (some l.tail), [.elem l.head?])
    | .front x => do
      let l ← s x
      let v ← l.head?
      pure (s, [.value v])
    | .clear x => do
      let _ ← s x
      pure (Function.update s x (some []), [.none])
    | .swap x y => do
      let l ← s x
      let m ← s y
      pure (Function.update (Function.update s x (some m)) y (some l), [.none])
    | .size x => do
      let l ← s x
      pure (s, [.count l.length])
    | .empty x => do
      let l ← s x
      pure (s, [.flag l.isEmpty])

def Holds (q : CircularQueue T) (l : List T) : Prop := q.Wf ∧ q.contents = l

def SameQueues (s : Nat → Option (CircularQueue T)) (t : Nat → Option (List T)) : Prop :=
  ∀ x, Option.Rel Holds (s x) (t x)

omit [Inhabited T] in
theorem SameQueues.of_some {s : Nat → Option (CircularQueue T)} (h : SameQueues s t)
    (hx : t x = some l) : ∃ q, s x = some q ∧ Holds q l := by
  have hrel := h x
  rw [hx] at hrel
  cases hs : s x with
  | none => rw [hs] at hrel; cases hrel
  | some q =>
    rw [hs] at hrel
    cases hrel with
    | some hq => exact ⟨q, rfl, hq⟩

omit [Inhabited T] in
theorem SameQueues.isNone_eq {s : Nat → Option (CircularQueue T)} (h : SameQueues s t) (x : Nat) :
    (s x).isNone = (t x).isNone := by
  have hrel := h x
  revert hrel
  generalize s x = a
  generalize t x = b
  rintro (_ | _) <;> rfl

omit [Inhabited T] in
theorem SameQueues.update {s : Nat → Option (CircularQueue T)} (h : SameQueues s t)
    (hq : Holds q l) (x : Nat) :
    SameQueues (Function.update s x (some q)) (Function.update t x (some l)) := by
  intro y
  rcases eq_or_ne y x with rfl | hne
  · simpa using Option.Rel.some hq
  · simpa [hne] using h y

theorem circleQueues_step {s : Nat → Option (CircularQueue T)} (hR : SameQueues s t)
    (hs : (fifoLists T).step t op = some (t', ret)) :
    ∃ s', (circleQueues T).step s op = some (s', ret) ∧ SameQueues s' t' := by
  cases op with
  | new x =>
    simp only [fifoLists, Option.ite_none_right_eq_some, Option.some.injEq, Prod.mk.injEq] at hs
    obtain ⟨hx, rfl, rfl⟩ := hs
    exact ⟨_, by simp only [circleQueues, hR.isNone_eq, hx, if_true], hR.update new_ok x⟩
  | newSized x n =>
    simp only [fifoLists, Option.ite_none_right_eq_some, Option.some.injEq, Prod.mk.injEq] at hs
    obtain ⟨hx, rfl, rfl⟩ := hs
    exact ⟨_, by simp only [circleQueues, hR.isNone_eq, hx, if_true], hR.update (newSized_ok n) x⟩
  | copyNew x src =>
    simp only [fifoLists, Option.bind_eq_bind, Option.bind_eq_some_iff,
      Option.ite_none_right_eq_some, Option.some.injEq, Prod.mk.injEq] at hs
    obtain ⟨l, hl, hx, rfl, rfl⟩ := hs
    obtain ⟨q, hq, hold⟩ := hR.of_some hl
    refine ⟨_, ?_, hR.update hold x⟩
    simp only [circleQueues, hq, Option.bind_eq_bind, Option.bind_some, hR.isNone_eq, hx, if_true]
  | copyAssign x src =>
    simp only [fifoLists, Option.bind_eq_bind, Option.bind_eq_some_iff, Option.pure_def,
      Option.some.injEq, Prod.mk.injEq] at hs
    obtain ⟨l, hl, m, hm, rfl, rfl⟩ := hs
    obtain ⟨q, hq, hold⟩ := hR.of_some hl
    obtain ⟨p, hp, -⟩ := hR.of_some hm
    exact ⟨_, by simp [circleQueues, hp, hq], hR.update hold x⟩
  | pushBack x v | emplaceBack x v =>
    simp only [fifoLists, Option.bind_eq_bind, Option.bind_eq_some_iff, Option.pure_def,
      Option.some.injEq, Prod.mk.injEq] at hs
    obtain ⟨l, hl, rfl, rfl⟩ := hs
    obtain ⟨q, hq, hw, rfl⟩ := hR.of_some hl
    obtain ⟨q', hadd, hold⟩ := add_ok hw v
    exact ⟨_, by simp [circleQueues, hq, hadd], hR.update hold x⟩
  | take x | popFront x =>
    simp only [fifoLists, Option.bind_eq_bind, Option.bind_eq_some_iff, Option.pure_def,
      Option.some.injEq, Prod.mk.injEq] at hs
    obtain ⟨l, hl, rfl, rfl⟩ := hs
    obtain ⟨q, hq, hw, rfl⟩ := hR.of_some hl
    obtain ⟨q', hpop, hold⟩ := pop_ok hw
    exact ⟨_, by simp [circleQueues, hq, hpop], hR.update hold x⟩
  | front x =>
    simp only [fifoLists, Option.bind_eq_bind, Option.bind_eq_some_iff, Option.pure_def,
      Option.some.injEq, Prod.mk.injEq] at hs
    obtain ⟨l, hl, v, hv, rfl, rfl⟩ := hs
    obtain ⟨q, hq, hw, rfl⟩ := hR.of_some hl
    have hne : q.contents ≠ [] := by rintro h; simp [h] at hv
    exact ⟨_, by simp [circleQueues, hq, front_eq hw hne, hv], hR⟩
  | clear x =>
    simp only [fifoLists, Option.bind_eq_bind, Option.bind_eq_some_iff, Option.pure_def,
      Option.some.injEq, Prod.mk.injEq] at hs
    obtain ⟨l, hl, rfl, rfl⟩ := hs
    obtain ⟨q, hq, hw, -⟩ := hR.of_some hl
    exact ⟨_, by simp [circleQueues, hq], hR.update (clear_ok hw) x⟩
  | swap x y =>
    simp only [fifoLists, Option.bind_eq_bind, Option.bind_eq_some_iff, Option.pure_def,
      Option.some.injEq, Prod.mk.injEq] at hs
    obtain ⟨l, hl, m, hm, rfl, rfl⟩ := hs
    obtain ⟨p, hp, hold⟩ := hR.of_some hl
    obtain ⟨q, hq, hold'⟩ := hR.of_some hm
    exact ⟨_, by simp [circleQueues, hp, hq], (hR.update hold' x).update hold y⟩
  | size x =>
    simp only [fifoLists, Option.bind_eq_bind, Option.bind_eq_some_iff, Option.pure_def,
      Option.some.injEq, Prod.mk.injEq] at hs
    obtain ⟨l, hl, rfl, rfl⟩ := hs
    obtain ⟨q, hq, hw, rfl⟩ := hR.of_some hl
    exact ⟨_, by simp [circleQueues, hq, length_contents hw], hR⟩
  | empty x =>
    simp only [fifoLists, Option.bind_eq_bind, Option.bind_eq_some_iff, Option.pure_def,
      Option.some.injEq, Prod.mk.injEq] at hs
    obtain ⟨l, hl, rfl, rfl⟩ := hs
    obtain ⟨q, hq, hw, rfl⟩ := hR.of_some hl
    exact ⟨_, by simp [circleQueues, hq, empty_eq hw], hR⟩

/-- Any sequence of calls that makes sense on lists succeeds on the rings with
the same results, and leaves rings that read, from `head` up to `current`, as
the lists do. -/
theorem circularQueue_refines_fifo (ops : List (CircleOp T))
    (h : (fifoLists T).replay (fifoLists T).init ops = some (lists, rets)) :
    ∃ queues, (circleQueues T).replay (circleQueues T).init ops = some (queues, rets) ∧
      ∀ x, (queues x).isSome = (lists x).isSome ∧
        ∀ q l, queues x = some q → lists x = some l →
          q.contents = l ∧ q.size = l.length ∧ q.empty = l.isEmpty ∧
          q.head < q.vec.length ∧ q.current < q.vec.length := by
  have hinit : SameQueues (circleQueues T).init (fifoLists T).init := fun _ => .none
  obtain ⟨queues, hrun, hR⟩ :=
    Machine.replay_follows (fun _ _ _ _ _ hR hs => circleQueues_step hR hs) hinit h
  refine ⟨queues, hrun, fun x => ⟨?_, ?_⟩⟩
  · rw [← Bool.not_inj_iff, Option.not_isSome, Option.not_isSome, hR.isNone_eq]
  · intro q l hq hl
    obtain ⟨q', hq', hw, rfl⟩ := hR.of_some hl
    obtain rfl := Option.some.inj (hq.symm.trans hq')
    exact ⟨rfl, (length_contents hw).symm, empty_eq hw, hw.head_lt, hw.current_lt⟩

/-- Sixteen elements, one of them taken: the seventeenth closes the ring up and
doubles it, and a copy is read after the original was cleared. -/
def wrappedOps : List (CircleOp Nat) :=
  .new 0 :: .pushBack 0 7 :: .take 0 :: List.append ((List.range 16).map (.pushBack 0))
    [.copyNew 1 0, .clear 0, .take 1, .size 1, .empty 0]

def wrappedRets : List (CircleRet Nat) :=
  .none :: .none :: .elem (some 7) :: List.append (List.replicate 16 .none)
    [.none, .none, .elem (some 0), .count 15, .flag true]

theorem circularQueue_refines_fifo_wrapped : ∃ queues,
    (circleQueues Nat).replay (circleQueues Nat).init wrappedOps = some (queues, wrappedRets) := by
  obtain ⟨queues, h, -⟩ := circularQueue_refines_fifo (T := Nat) wrappedOps rfl
  exact ⟨queues, h⟩

end Andren.Base
