import Andren.Base.CircleQue
import Andren.Base.MutexQue
import Mathlib.Data.List.ReduceOption

/-!
# The circular double-buffered queue

`MutexQueCircle<T>` is `MutexQue<T>` over two circular queues, and these are of
`int` for every `T`: what is pushed is converted to `int`, and back when it is
taken. With the conversions it takes out what `MutexQue` takes out
(`takes_eq_map`), so the two agree exactly when the values taken survive the
conversions (`mutexQueCircle_agrees_iff`).
-/

namespace Andren.Base

open CircularQueue Machines

section

variable {T : Type}

inductive QueCall (T : Type)
  | pushBack (t : T)
  | takeOne

-- ---------------------------------------------------------------------------
-- MutexQue, one call after another
-- ---------------------------------------------------------------------------

def MutexQue.takeOne (q : MutexQue T) : MutexQue T × Option T :=
  let q := if q.front.isEmpty then q.swap else q
  match q.front with
  | [] => (q, none)
  | t :: rest => ({ q with front := rest }, some t)

def MutexQue.takes (q : MutexQue T) : List (QueCall T) → List (Option T)
  | [] => []
  | .pushBack t :: calls => (q.pushBack t).takes calls
  | .takeOne :: calls => q.takeOne.2 :: q.takeOne.1.takes calls

theorem MutexQue.takeOne_steps (q : MutexQue T) : (MutexQue.shared T).Steps Machine.anyStep ⟨q, none⟩
    [.took q.takeOne.2.toList] ⟨q.takeOne.1, none⟩ := by
  obtain ⟨_ | ⟨t, rest⟩, tail⟩ := q
  · cases tail with
    | nil =>
      have hr : (MutexQue.shared T).replay ⟨⟨[], []⟩, none⟩ [.call .one, .step, .step, .step] = _ := rfl
      exact Machine.steps_of_replay hr
    | cons t rest =>
      have hr : (MutexQue.shared T).replay ⟨⟨[], t :: rest⟩, none⟩
        [.call .one, .step, .step, .step, .step] = _ := rfl
      exact Machine.steps_of_replay hr
  · have hr : (MutexQue.shared T).replay ⟨⟨t :: rest, tail⟩, none⟩ [.call .one, .step, .step] = _ := rfl
    exact Machine.steps_of_replay hr

theorem MutexQue.contents_takeOne (q : MutexQue T) : q.contents = q.takeOne.2.toList ++ q.takeOne.1.contents := by
  obtain ⟨_ | ⟨t, rest⟩, tail⟩ := q
  · cases tail <;> simp [takeOne, swap, contents]
  · simp [takeOne, contents]

theorem MutexQue.takeOne_eq_none {q : MutexQue T} : q.takeOne.2 = none ↔ q.contents = [] := by
  obtain ⟨_ | ⟨t, rest⟩, tail⟩ := q
  · cases tail <;> simp [takeOne, swap, contents]
  · simp [takeOne, contents]

def pushedValues : List (QueCall T) → List T
  | [] => []
  | .pushBack t :: calls => t :: pushedValues calls
  | .takeOne :: calls => pushedValues calls

/-- How many takes find something, when `waiting` elements are in the queue. -/
def served : Nat → List (QueCall T) → Nat
  | _, [] => 0
  | waiting, .pushBack _ :: calls => served (waiting + 1) calls
  | 0, .takeOne :: calls => served 0 calls
  | waiting + 1, .takeOne :: calls => served waiting calls + 1

theorem MutexQue.takes_eq (q : MutexQue T) (calls : List (QueCall T)) :
    (q.takes calls).reduceOption = (q.contents ++ pushedValues calls).take (served q.contents.length calls) := by
  induction calls generalizing q with
  | nil => simp [takes, served]
  | cons c calls ih =>
    cases c with
    | pushBack t =>
      rw [takes, ih, contents_pushBack, List.length_append, List.length_singleton]
      simp [pushedValues, served]
    | takeOne =>
      have hcontents := q.contents_takeOne
      have hnone := @takeOne_eq_none _ q
      rw [takes, pushedValues]
      cases htake : q.takeOne.2 with
      | none =>
        rw [htake] at hcontents
        rw [List.reduceOption_cons_of_none, ih, ← show q.contents = q.takeOne.1.contents from hcontents,
          hnone.mp htake]
        rfl
      | some t =>
        rw [htake] at hcontents
        rw [List.reduceOption_cons_of_some, ih,
          show q.contents = t :: q.takeOne.1.contents from hcontents]
        rfl

-- ---------------------------------------------------------------------------
-- MutexQueCircle
-- ---------------------------------------------------------------------------

structure MutexQueCircle where
  front : CircularQueue (BitVec 32)
  tail : CircularQueue (BitVec 32)

namespace MutexQueCircle

def new : MutexQueCircle := ⟨newSized 128, newSized 128⟩

/-- Both overloads convert `t` to the `int` that `add` stores. -/
def pushBack (toInt : T → BitVec 32) (q : MutexQueCircle) (t : T) : Option MutexQueCircle := do
  let tail ← q.tail.add (toInt t)
  pure { q with tail }

def swap (q : MutexQueCircle) : MutexQueCircle := ⟨q.tail, q.front⟩

/-- `res = std::move(m_front.front())` converts back. -/
def takeOne (ofInt : BitVec 32 → T) (q : MutexQueCircle) : Option (MutexQueCircle × Option T) :=
  let q := if q.front.empty then q.swap else q
  if q.front.empty then some (q, none)
  else do
    let v ← q.front.front
    let (_, front) ← q.front.pop
    pure ({ q with front }, some (ofInt v))

def takes (toInt : T → BitVec 32) (ofInt : BitVec 32 → T) (q : MutexQueCircle) :
    List (QueCall T) → Option (List (Option T))
  | [] => some []
  | .pushBack t :: calls => do
    let q ← q.pushBack toInt t
    q.takes toInt ofInt calls
  | .takeOne :: calls => do
    let (q, res) ← q.takeOne ofInt
    let ress ← q.takes toInt ofInt calls
    pure (res :: ress)

end MutexQueCircle

structure Converted (toInt : T → BitVec 32) (c : MutexQueCircle) (q : MutexQue T) : Prop where
  front : Holds c.front (q.front.map toInt)
  tail : Holds c.tail (q.tail.map toInt)

variable {toInt : T → BitVec 32} {ofInt : BitVec 32 → T} {c : MutexQueCircle} {q : MutexQue T}

theorem converted_new (toInt : T → BitVec 32) : Converted toInt MutexQueCircle.new MutexQue.empty :=
  ⟨newSized_ok 128, newSized_ok 128⟩

theorem Converted.swap (h : Converted toInt c q) : Converted toInt c.swap q.swap := ⟨h.tail, h.front⟩

theorem Converted.empty_eq (h : Converted toInt c q) : c.front.empty = q.front.isEmpty := by
  rw [CircularQueue.empty_eq h.front.1, h.front.2, List.isEmpty_map]

theorem Converted.pushBack (h : Converted toInt c q) (t : T) :
    ∃ c', c.pushBack toInt t = some c' ∧ Converted toInt c' (q.pushBack t) := by
  obtain ⟨tail, hadd, hwf, hcontents⟩ := add_ok h.tail.1 (toInt t)
  refine ⟨{ c with tail }, by simp [MutexQueCircle.pushBack, hadd], h.front, hwf, ?_⟩
  rw [hcontents, h.tail.2]
  simp [MutexQue.pushBack]

theorem Converted.takeOne (h : Converted toInt c q) (ofInt : BitVec 32 → T) : ∃ c',
    c.takeOne ofInt = some (c', q.takeOne.2.map fun t => ofInt (toInt t)) ∧ Converted toInt c' q.takeOne.1 := by
  -- after the swap, if any, both sides are empty or have a first element
  obtain ⟨c₁, q₁, h₁, hc, hq⟩ : ∃ c₁ q₁, Converted toInt c₁ q₁ ∧
      (if c.front.empty then c.swap else c) = c₁ ∧ (if q.front.isEmpty then q.swap else q) = q₁ := by
    rw [h.empty_eq]
    split
    · exact ⟨_, _, h.swap, rfl, rfl⟩
    · exact ⟨_, _, h, rfl, rfl⟩
  unfold MutexQueCircle.takeOne MutexQue.takeOne
  simp only [hc, hq, h₁.empty_eq]
  obtain ⟨front, tail⟩ := q₁
  cases front with
  | nil => exact ⟨c₁, rfl, h₁⟩
  | cons t rest =>
    have hcontents : c₁.front.contents = toInt t :: rest.map toInt := h₁.front.2
    have hfront := front_eq h₁.front.1 (by simp [hcontents])
    obtain ⟨front', hpop, hwf, htail⟩ := pop_ok h₁.front.1
    refine ⟨{ c₁ with front := front' }, ?_, ⟨hwf, ?_⟩, h₁.tail⟩
    · simp [hfront, hpop, hcontents]
    · rw [htail, hcontents]
      rfl

/-- With the conversions it returns what `MutexQue` returns, and no index is out
of range. -/
theorem takes_eq_map (h : Converted toInt c q) (calls : List (QueCall T)) :
    c.takes toInt ofInt calls = some ((q.takes calls).map (Option.map fun t => ofInt (toInt t))) := by
  induction calls generalizing c q with
  | nil => rfl
  | cons call calls ih =>
    cases call with
    | pushBack t =>
      obtain ⟨c', hpush, h'⟩ := h.pushBack t
      simp [MutexQueCircle.takes, MutexQue.takes, hpush, ih h']
    | takeOne =>
      obtain ⟨c', htake, h'⟩ := h.takeOne ofInt
      simp [MutexQueCircle.takes, MutexQue.takes, htake, ih h']

theorem map_eq_self_iff (f : T → T) (ress : List (Option T)) :
    ress.map (Option.map f) = ress ↔ ∀ v ∈ ress.reduceOption, f v = v := by
  induction ress with
  | nil => simp
  | cons res ress ih => cases res <;> simp [List.reduceOption_cons_of_none, List.reduceOption_cons_of_some, ih]

end

/-- For every type with conversions to and from `int` and every sequence of
calls: `MutexQue` delivers the values pushed, in their order, and
`MutexQueCircle` does the same if and only if each value delivered is the same
after a conversion to `int` and back. -/
theorem mutexQueCircle_agrees_iff (T : Type) (toInt : T → BitVec 32) (ofInt : BitVec 32 → T)
    (calls : List (QueCall T)) :
    ((MutexQue.empty.takes calls).reduceOption = (pushedValues calls).take (served 0 calls)) ∧
      (MutexQueCircle.new.takes toInt ofInt calls = some (MutexQue.empty.takes calls) ↔
        ∀ v ∈ (pushedValues calls).take (served 0 calls), ofInt (toInt v) = v) := by
  have htakes := MutexQue.takes_eq MutexQue.empty calls
  refine ⟨htakes, ?_⟩
  rw [takes_eq_map (converted_new toInt), Option.some.injEq, map_eq_self_iff, htakes]
  rfl

theorem mutexQueCircle_truncates :
    MutexQueCircle.new.takes (BitVec.setWidth 32) (BitVec.signExtend 64)
        [.pushBack (0x100000000 : BitVec 64), .takeOne] = some [some 0] ∧
      MutexQue.empty.takes [.pushBack (0x100000000 : BitVec 64), .takeOne] = [some 0x100000000] := by
  refine ⟨?_, rfl⟩
  rw [takes_eq_map (converted_new _)]
  rfl

end Andren.Base
