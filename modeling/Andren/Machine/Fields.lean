import Mathlib.Data.Finset.Card
import Mathlib.Data.List.Induction
import Std.Data.TreeMap.Lemmas

/-!
# Fields

Names with values, given one after the other. What counts for a name is the value it was
given last; a map into which the fields are put in turn holds just that
(`getElem?_putAll`). Values with places are written into a list, which then is any list that
has each of them at its place (`placeAll_of_agree`).
-/

namespace Machines

open Std (TreeMap TransOrd LawfulEqOrd)

section

variable [DecidableEq α]

def lastValue (fields : List (α × β)) (name : α) : Option β := fields.reverse.lookup name

@[simp] theorem lastValue_nil (name : α) : lastValue ([] : List (α × β)) name = none := rfl

theorem lastValue_append (fields fields' : List (α × β)) (name : α) :
    lastValue (fields ++ fields') name = (lastValue fields' name).or (lastValue fields name) := by
  simp [lastValue, List.lookup_append]

theorem lastValue_singleton (name other : α) (value : β) :
    lastValue [(other, value)] name = if name = other then some value else none := by
  by_cases h : name = other
  · simp [lastValue, h]
  · simp [lastValue, List.lookup_cons, beq_eq_false_iff_ne.mpr h, h]

theorem lastValue_snoc (fields : List (α × β)) (name other : α) (value : β) :
    lastValue (fields ++ [(other, value)]) name = if name = other then some value else lastValue fields name := by
  rw [lastValue_append, lastValue_singleton]
  split <;> rfl

theorem lastValue_cons (fields : List (α × β)) (name other : α) (value : β) :
    lastValue ((other, value) :: fields) name =
      (lastValue fields name).or (if name = other then some value else none) := by
  rw [← List.singleton_append, lastValue_append, lastValue_singleton]

theorem mem_of_lastValue {fields : List (α × β)} (h : lastValue fields name = some value) :
    (name, value) ∈ fields := by
  obtain ⟨before, after, heq, -⟩ := List.lookup_eq_some_iff.mp h
  exact List.mem_reverse.mp (heq ▸ List.mem_append_right _ (.head _))

end

def putAll [Ord α] (t : TreeMap α β) (fields : List (α × β)) : TreeMap α β :=
  fields.foldl (fun t field => t.insert field.1 field.2) t

theorem putAll_snoc [Ord α] (t : TreeMap α β) (fields : List (α × β)) (field : α × β) :
    putAll t (fields ++ [field]) = (putAll t fields).insert field.1 field.2 := by
  simp [putAll]

theorem getElem?_putAll [Ord α] [TransOrd α] [LawfulEqOrd α] [DecidableEq α] (t : TreeMap α β)
    (fields : List (α × β)) (name : α) : (putAll t fields)[name]? = (lastValue fields name).or t[name]? := by
  induction fields using List.reverseRecOn with
  | nil => rfl
  | append_singleton fields field ih =>
    rw [putAll_snoc, TreeMap.getElem?_insert, lastValue_snoc, ih]
    by_cases h : name = field.1
    · simp [h]
    · simp [h, Ne.symm h]

theorem mem_putAll [Ord α] [TransOrd α] [LawfulEqOrd α] (fields : List (α × β)) (name : α) :
    name ∈ putAll (∅ : TreeMap α β) fields ↔ name ∈ fields.map Prod.fst := by
  induction fields using List.reverseRecOn with
  | nil => simp [putAll]
  | append_singleton fields field ih =>
    simp only [putAll_snoc, TreeMap.mem_insert, Std.compare_eq_iff_eq, ih, List.map_append, List.map_singleton,
      List.mem_append, List.mem_singleton]
    rw [or_comm, @eq_comm _ name]

theorem size_putAll [Ord α] [TransOrd α] [LawfulEqOrd α] [DecidableEq α] (fields : List (α × β)) :
    (putAll (∅ : TreeMap α β) fields).size = (fields.map Prod.fst).dedup.length := by
  rw [← List.card_toFinset]
  induction fields using List.reverseRecOn with
  | nil => rfl
  | append_singleton fields field ih =>
    have hmem : (putAll (∅ : TreeMap α β) fields).contains field.1 = true ↔
        field.1 ∈ (fields.map Prod.fst).toFinset := by
      rw [TreeMap.contains_iff_mem, mem_putAll, List.mem_toFinset]
    simp only [putAll_snoc, TreeMap.size_insert, ih, hmem, List.map_append, List.map_singleton,
      List.toFinset_append, List.toFinset_cons, List.toFinset_nil, Finset.union_insert, Finset.union_empty]
    split
    next h => rw [Finset.insert_eq_of_mem h]
    next h => rw [Finset.card_insert_of_notMem h]

-- ---------------------------------------------------------------------------
-- Values at places
-- ---------------------------------------------------------------------------

/-- `v` after each value was written at its place, `none` when `v` has no such place. -/
def placeAll (v : List α) : List (α × Nat) → Option (List α)
  | [] => some v
  | (x, i) :: ps => if i < v.length then placeAll (v.set i x) ps else none

theorem length_placeAll {v : List α} (h : placeAll v ps = some w) : w.length = v.length := by
  induction ps generalizing v with
  | nil => cases h; rfl
  | cons p ps ih =>
    obtain ⟨-, h⟩ := Option.ite_none_right_eq_some.mp h
    rw [ih h, List.length_set]

/-- Every write agrees with `xs`, and what is not written is as in `xs` before. -/
theorem placeAll_of_agree {v xs : List α} (hwrites : ∀ p ∈ ps, xs[p.2]? = some p.1) (hlen : v.length = xs.length)
    (hall : ∀ i x, xs[i]? = some x → (x, i) ∈ ps ∨ v[i]? = some x) : placeAll v ps = some xs := by
  induction ps generalizing v with
  | nil =>
    refine congrArg some (List.ext_getElem? fun i => ?_)
    rcases Nat.lt_or_ge i xs.length with hi | hi
    · simpa [hi] using hall i xs[i] (by simp [hi])
    · simp [hi, hlen]
  | cons p ps ih =>
    obtain ⟨x, i⟩ := p
    have hx : xs[i]? = some x := hwrites _ (.head _)
    have hi : i < v.length := hlen ▸ (List.getElem?_eq_some_iff.mp hx).1
    rw [placeAll, if_pos hi]
    refine ih (fun p hp => hwrites p (.tail _ hp)) (by simpa using hlen) fun j y hy => ?_
    by_cases hj : i = j
    · subst hj
      right
      simpa [hi] using hx.symm.trans hy
    · rcases hall j y hy with hmem | hv
      · refine .inl ((List.mem_cons.mp hmem).resolve_left fun heq => hj ?_)
        exact (congrArg Prod.snd heq).symm
      · right
        simpa [hj] using hv

end Machines
