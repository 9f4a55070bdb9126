import Andren.Machine.ArrayHeap
import Andren.Machine.Basic
import Andren.Machine.Trace
import Mathlib.Data.List.Perm.Basic

/-!
# Priority queues

`QueueOps` are the operations of a queue whose elements come out in order, and
`Lawful` is what each of them is to do with the elements it holds. In every run
the queue holds what was pushed and not extracted since it was last cleared,
and hands out nothing that another element is before (`Lawful.run`). A heap in
an array is such a queue (`arrayQueue_lawful`).
-/

namespace Machines

structure QueueOps (Q : Type u) (α : Type v) where
  new : Q
  push : Q → α → Q
  least : Q → Option α
  extract : Q → Q × Option α
  clear : Q → Q

inductive QueueOp (α : Type v)
  | push (x : α)
  | least
  | extract
  | clear

inductive QueueEv (α : Type v)
  | pushed (x : α)
  | least (ret : Option α)
  | extracted (ret : Option α)
  | cleared
  deriving DecidableEq

def queue (O : QueueOps Q α) : Machine Q (QueueOp α) (QueueEv α) where
  init := O.new
  step q
    | .push x => some (O.push q x, [.pushed x])
    | .least => some (q, [.least (O.least q)])
    | .extract =>
      let (q, ret) := O.extract q
      some (q, [.extracted ret])
    | .clear => some (O.clear q, [.cleared])

/-- `extract` until nothing comes out; `fuel` bounds the rounds. -/
def QueueOps.drain (O : QueueOps Q α) : Nat → Q → List α
  | 0, _ => []
  | fuel + 1, q => match O.extract q with
    | (q, some x) => x :: O.drain fuel q
    | (_, none) => []

/-- Nothing in `items` is before `ret`, and there is none only if `items` is
empty. -/
def Least (lt : α → α → Prop) (items : List α) : Option α → Prop
  | none => items = []
  | some x => x ∈ items ∧ ∀ y ∈ items, ¬lt y x

/-- The elements that a lawful queue holds, as long as it is `ok`. -/
structure Lawful (O : QueueOps Q α) (lt : α → α → Prop) (ok : Q → Prop) (items : Q → List α) : Prop where
  new_ok : ok O.new
  new_items : items O.new = []
  push_ok : ok q → ok (O.push q x)
  push_items : (items (O.push q x)).Perm (x :: items q)
  least : ok q → Least lt (items q) (O.least q)
  extract_ok : ok q → ok (O.extract q).1
  extract_least : ok q → Least lt (items q) (O.extract q).2
  extract_items : (items q).Perm ((O.extract q).2.toList ++ items (O.extract q).1)
  clear_ok : ok (O.clear q)
  clear_items : items (O.clear q) = []

-- ---------------------------------------------------------------------------
-- What the queue holds
-- ---------------------------------------------------------------------------

/-- What was pushed since the queue was last cleared. -/
def inserted (tr : List (QueueEv α)) : List α :=
  tr.foldl (fun xs e => match e with
    | .pushed x => xs ++ [x]
    | .cleared => []
    | _ => xs) []

def removed (tr : List (QueueEv α)) : List α :=
  tr.foldl (fun xs e => match e with
    | .extracted ret => xs ++ ret.toList
    | .cleared => []
    | _ => xs) []

def Stored (tr : List (QueueEv α)) (items : List α) : Prop := (items ++ removed tr).Perm (inserted tr)

def Answers (lt : α → α → Prop) (tr : List (QueueEv α)) : QueueEv α → Prop
  | .least ret | .extracted ret => ∃ items, Stored tr items ∧ Least lt items ret
  | .pushed _ | .cleared => True

section

variable {O : QueueOps Q α} {lt : α → α → Prop} {ok : Q → Prop} {items : Q → List α}

theorem Lawful.step (h : Lawful O lt ok items) (hok : ok q) (hstored : Stored tr (items q))
    (hs : (queue O).step q a = some (q', es)) :
    ok q' ∧ Stored (tr ++ es) (items q') ∧ AlwaysFrom (Answers lt) tr es := by
  unfold Stored inserted removed at *
  cases a with
  | push x =>
    cases hs
    refine ⟨h.push_ok hok, ?_, trivial, trivial⟩
    simp only [List.foldl_append, List.foldl_cons, List.foldl_nil]
    refine (h.push_items.append_right _).trans ?_
    rw [List.cons_append]
    exact (hstored.cons x).trans (List.perm_append_singleton x _).symm
  | least =>
    cases hs
    refine ⟨hok, ?_, ⟨items q, hstored, h.least hok⟩, trivial⟩
    simpa only [List.foldl_append, List.foldl_cons, List.foldl_nil] using hstored
  | extract =>
    cases hs
    refine ⟨h.extract_ok hok, ?_, ⟨items q, hstored, h.extract_least hok⟩, trivial⟩
    simp only [List.foldl_append, List.foldl_cons, List.foldl_nil]
    refine .trans ?_ ((h.extract_items.symm.append_right _).trans hstored)
    rw [← List.append_assoc, List.append_assoc _ (items _)]
    exact List.perm_append_comm
  | clear =>
    cases hs
    refine ⟨h.clear_ok, ?_, trivial, trivial⟩
    simp only [List.foldl_append, List.foldl_cons, List.foldl_nil, h.clear_items]
    exact .refl _

/-- In every run each answer is right, and the queue holds what it should. -/
theorem Lawful.run (h : Lawful O lt ok items) (hrun : (queue O).Run tr q) :
    ok q ∧ Stored tr (items q) ∧ Always (Answers lt) tr := by
  refine hrun.invariant (I := fun tr q => ok q ∧ Stored tr (items q) ∧ Always (Answers lt) tr) ?_ ?_
  · refine ⟨h.new_ok, ?_, always_nil⟩
    rw [Stored, queue, h.new_items]
    exact .refl _
  · rintro tr q a q' es _ ⟨hok, hstored, halways⟩ _ hs
    obtain ⟨hok', hstored', hanswers⟩ := h.step hok hstored hs
    exact ⟨hok', hstored', always_append.mpr ⟨halways, hanswers⟩⟩

/-- Draining yields all elements in order. -/
theorem Lawful.drain (h : Lawful O lt ok items) (hok : ok q) (hfuel : (items q).length ≤ fuel) :
    (O.drain fuel q).Perm (items q) ∧ (O.drain fuel q).Pairwise fun a b => ¬lt b a := by
  induction fuel generalizing q with
  | zero =>
    rw [List.length_eq_zero_iff.mp (Nat.le_zero.mp hfuel)]
    exact ⟨.refl _, .nil⟩
  | succ fuel ih =>
    have hitems := h.extract_items (q := q)
    have hleast := h.extract_least hok
    have hok' := h.extract_ok hok
    rw [QueueOps.drain]
    split
    · rename_i q' x heq
      rw [heq] at hitems hleast hok'
      have hlength : (items q').length + 1 = (items q).length := hitems.length_eq.symm
      have hfuel' : (items q').length ≤ fuel := Nat.le_of_succ_le_succ (Nat.le_trans (Nat.le_of_eq hlength) hfuel)
      obtain ⟨hperm, hsorted⟩ := ih hok' hfuel'
      refine ⟨(hperm.cons x).trans hitems.symm, List.pairwise_cons.mpr ⟨?_, hsorted⟩⟩
      intro y hy
      exact hleast.2 y (hitems.mem_iff.mpr (.tail _ (hperm.mem_iff.mp hy)))
    · rename_i heq
      rw [heq] at hleast
      rw [show items q = [] from hleast]
      exact ⟨.refl _, .nil⟩

theorem Lawful.comap {O' : QueueOps Q' α} (h : Lawful O lt ok items) (f : Q' → Q) (hnew : f O'.new = O.new)
    (hpush : ∀ q x, f (O'.push q x) = O.push (f q) x) (hleast : ∀ q, O'.least q = O.least (f q))
    (hextract : ∀ q, (f (O'.extract q).1, (O'.extract q).2) = O.extract (f q))
    (hclear : ∀ q, f (O'.clear q) = O.clear (f q)) :
    Lawful O' lt (fun q => ok (f q)) fun q => items (f q) where
  new_ok := hnew ▸ h.new_ok
  new_items := hnew ▸ h.new_items
  push_ok hok := hpush _ _ ▸ h.push_ok hok
  push_items := hpush _ _ ▸ h.push_items
  least hok := hleast _ ▸ h.least hok
  extract_ok {q} hok := by
    have hok' := h.extract_ok hok
    rwa [← hextract q] at hok'
  extract_least {q} hok := by
    have hleast' := h.extract_least hok
    rwa [← hextract q] at hleast'
  extract_items {q} := by
    have hitems := h.extract_items (q := f q)
    rwa [← hextract q] at hitems
  clear_ok := hclear _ ▸ h.clear_ok
  clear_items := hclear _ ▸ h.clear_items

end

-- ---------------------------------------------------------------------------
-- Two queues
-- ---------------------------------------------------------------------------

def QueueEv.map (f : α → β) : QueueEv α → QueueEv β
  | .pushed x => .pushed (f x)
  | .least ret => .least (ret.map f)
  | .extracted ret => .extracted (ret.map f)
  | .cleared => .cleared

/-- Elements of the same key are before the same elements, and no others are before neither. -/
structure Keyed (lt : α → α → Prop) (key : α → κ) : Prop where
  congr : key x = key x' → key y = key y' → lt x y → lt x' y'
  tie : ¬lt x y → ¬lt y x → key x = key y

section

variable {O : QueueOps Q α} {O' : QueueOps Q' α} {lt : α → α → Prop} {ok : Q → Prop} {ok' : Q' → Prop}
  {items : Q → List α} {items' : Q' → List α} {key : α → κ} {xs xs' : List α}

theorem Least.key_not_lt (hkey : Keyed lt key) (hperm : (xs.map key).Perm (xs'.map key)) (h : Least lt xs (some x))
    (hy : y ∈ xs') : ¬lt y x := by
  obtain ⟨y', hy', heq⟩ := List.mem_map.mp (hperm.mem_iff.mpr (List.mem_map_of_mem hy))
  exact fun hlt => h.2 y' hy' (hkey.congr heq.symm rfl hlt)

theorem Least.key_eq (hkey : Keyed lt key) (hperm : (xs.map key).Perm (xs'.map key)) (h : Least lt xs ret)
    (h' : Least lt xs' ret') : ret.map key = ret'.map key := by
  cases ret with
  | none =>
    obtain rfl : xs = [] := h
    have hnil : xs' = [] := List.map_eq_nil_iff.mp (List.nil_perm.mp hperm)
    cases ret' with
    | none => rfl
    | some x' => exact absurd (hnil ▸ h'.1) List.not_mem_nil
  | some x =>
    cases ret' with
    | none =>
      obtain rfl : xs' = [] := h'
      have hnil : xs = [] := List.map_eq_nil_iff.mp (List.perm_nil.mp hperm)
      exact absurd (hnil ▸ h.1) List.not_mem_nil
    | some x' =>
      have hle := Least.key_not_lt hkey hperm h h'.1
      have hge := Least.key_not_lt hkey hperm.symm h' h.1
      exact congrArg some (hkey.tie hge hle)

structure SameKeys (ok : Q → Prop) (ok' : Q' → Prop) (items : Q → List α) (items' : Q' → List α) (key : α → κ)
    (q : Q) (q' : Q') : Prop where
  left : ok q
  right : ok' q'
  keys : ((items q).map key).Perm ((items' q').map key)

theorem SameKeys.step (hkey : Keyed lt key) (h : Lawful O lt ok items) (h' : Lawful O' lt ok' items')
    (hsame : SameKeys ok ok' items items' key q q') (a : QueueOp α) :
    ∃ q₁ q₁' e e', (queue O).step q a = some (q₁, [e]) ∧ (queue O').step q' a = some (q₁', [e']) ∧
      SameKeys ok ok' items items' key q₁ q₁' ∧ e.map key = e'.map key := by
  obtain ⟨hok, hok', hkeys⟩ := hsame
  cases a with
  | push x =>
    refine ⟨_, _, _, _, rfl, rfl, ⟨h.push_ok hok, h'.push_ok hok', ?_⟩, rfl⟩
    exact (h.push_items.map key).trans ((hkeys.cons _).trans (h'.push_items.map key).symm)
  | least =>
    refine ⟨_, _, _, _, rfl, rfl, ⟨hok, hok', hkeys⟩, ?_⟩
    exact congrArg QueueEv.least (Least.key_eq hkey hkeys (h.least hok) (h'.least hok'))
  | extract =>
    have hret := Least.key_eq hkey hkeys (h.extract_least hok) (h'.extract_least hok')
    refine ⟨_, _, _, _, rfl, rfl, ⟨h.extract_ok hok, h'.extract_ok hok', ?_⟩, congrArg QueueEv.extracted hret⟩
    have hall := (h.extract_items.symm.map key).trans (hkeys.trans (h'.extract_items.map key))
    rw [List.map_append, List.map_append, ← Option.toList_map, ← Option.toList_map, hret] at hall
    exact (List.perm_append_left_iff _).mp hall
  | clear =>
    refine ⟨_, _, _, _, rfl, rfl, ⟨h.clear_ok, h'.clear_ok, ?_⟩, rfl⟩
    rw [h.clear_items, h'.clear_items]

/-- Lawful queues answer with the same keys, whatever is asked of both. -/
theorem Lawful.agree (hkey : Keyed lt key) (h : Lawful O lt ok items) (h' : Lawful O' lt ok' items')
    (as : List (QueueOp α)) : ∃ q q' tr tr', (queue O).replay O.new as = some (q, tr) ∧
      (queue O').replay O'.new as = some (q', tr') ∧ tr.map (QueueEv.map key) = tr'.map (QueueEv.map key) ∧
      ((items q).map key).Perm ((items' q').map key) := by
  have hrun : ∀ q q', SameKeys ok ok' items items' key q q' → ∃ q₁ q₁' tr tr',
      (queue O).replay q as = some (q₁, tr) ∧ (queue O').replay q' as = some (q₁', tr') ∧
      SameKeys ok ok' items items' key q₁ q₁' ∧ tr.map (QueueEv.map key) = tr'.map (QueueEv.map key) := by
    induction as with
    | nil => exact fun q q' hsame => ⟨q, q', [], [], rfl, rfl, hsame, rfl⟩
    | cons a as ih =>
      intro q q' hsame
      obtain ⟨q₁, q₁', e, e', hs, hs', hsame₁, he⟩ := hsame.step hkey h h' a
      obtain ⟨q₂, q₂', tr, tr', hr, hr', hsame₂, htr⟩ := ih q₁ q₁' hsame₁
      refine ⟨q₂, q₂', [e] ++ tr, [e'] ++ tr', ?_, ?_, hsame₂, ?_⟩
      · simp [Machine.replay, hs, hr]
      · simp [Machine.replay, hs', hr']
      · simp [he, htr]
  have hempty : ((items O.new).map key).Perm ((items' O'.new).map key) := by rw [h.new_items, h'.new_items]
  obtain ⟨q, q', tr, tr', hr, hr', hsame, htr⟩ := hrun _ _ ⟨h.new_ok, h'.new_ok, hempty⟩
  exact ⟨q, q', tr, tr', hr, hr', htr, hsame.keys⟩

end

-- ---------------------------------------------------------------------------
-- Heaps in arrays
-- ---------------------------------------------------------------------------

section

open Heaps

variable {lt : α → α → Bool} {parent : Nat → Nat} {children : Nat → List Nat}

def arrayQueue (lt : α → α → Bool) (parent : Nat → Nat) (children : Nat → List Nat) : QueueOps (Array α) α where
  new := #[]
  push := Heaps.push lt parent
  least xs := xs[0]?
  extract := Heaps.extract lt children
  clear _ := #[]

theorem least_root [IsStrictWeakOrder α fun a b => lt a b] (hshape : Shape parent children)
    (h : Ordered lt parent xs) : Least (fun a b => lt a b) xs.toList xs[0]? := by
  cases hret : xs[0]? with
  | none =>
    have hsize := Array.getElem?_eq_none_iff.mp hret
    exact List.eq_nil_of_length_eq_zero (Nat.le_zero.mp hsize)
  | some ret =>
    refine ⟨Array.mem_toList_iff.mpr (Array.mem_of_getElem? hret), ?_⟩
    intro y hy
    exact Bool.eq_false_iff.mp (h.least hshape hret hy)

theorem arrayQueue_lawful [IsStrictWeakOrder α fun a b => lt a b] (hshape : Shape parent children) :
    Lawful (arrayQueue lt parent children) (fun a b => lt a b) (Ordered lt parent) Array.toList where
  new_ok := ordered_empty lt parent
  new_items := rfl
  push_ok h := ordered_push hshape h _
  push_items := perm_push lt parent _ _
  least h := least_root hshape h
  extract_ok h := ordered_extract hshape h
  extract_least {xs} h := by
    rw [arrayQueue, extract_snd]
    exact least_root hshape h
  extract_items {xs} := by
    rcases Nat.eq_zero_or_pos xs.size with hsize | hsize
    · obtain rfl := Array.eq_empty_of_size_eq_zero hsize
      exact .refl _
    · obtain ⟨ys, ret, hret, hperm⟩ : ∃ ys ret, Heaps.extract lt children xs = (ys, some ret) ∧ _ :=
        extract_some hsize
      simp only [arrayQueue, hret]
      exact hperm
  clear_ok := ordered_empty lt parent
  clear_items := rfl

end

end Machines
