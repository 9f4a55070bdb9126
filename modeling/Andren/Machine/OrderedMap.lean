import Std.Data.TreeMap
import Mathlib.Data.List.Sort

/-!
# Walks over ordered maps

A map that is walked by key: an iterator stands at a key and advances to the
next key that the map then holds. A walk over a map that does not change visits
its keys in order (`next_eq`), and two maps can be joined by a walk over either
of them (`join_comm`).
-/

namespace Machines.OrderedMap

open Std

variable {α : Type u} {β : Type v} {γ : Type w} [Ord α] [TransOrd α] [LawfulEqOrd α]

def first (t : TreeMap α β) : Option α := t.keys.head?

/-- Where an iterator at `k` advances to. -/
def next (t : TreeMap α β) (k : α) : Option α := t.keys.find? fun k' => compare k k' == .lt

theorem next_eq {t : TreeMap α β} (h : t.keys = xs ++ k :: ys) : next t k = ys.head? := by
  have hsorted : (xs ++ k :: ys).Pairwise (fun a b => compare a b = .lt) := h ▸ t.ordered_keys
  obtain ⟨-, hk, hlt⟩ := List.pairwise_append.mp hsorted
  have hxs : (xs ++ [k]).find? (fun k' => compare k k' == .lt) = none := by
    rw [List.find?_eq_none]
    rintro a ha
    rcases List.mem_append.mp ha with ha | ha
    · have hak := hlt a ha k (.head _)
      simp [OrientedCmp.gt_of_lt hak]
    · obtain rfl := List.mem_singleton.mp ha
      simp [ReflCmp.compare_self]
  have hys : ys.find? (fun k' => compare k k' == .lt) = ys.head? := by
    cases ys with
    | nil => rfl
    | cons y ys => simp [List.rel_of_pairwise_cons hk (.head _)]
  rw [next, h, ← List.singleton_append, ← List.append_assoc, List.find?_append, hxs, hys]
  rfl

theorem keys_split {t : TreeMap α β} (hk : k ∈ t) (h : t.keys = xs ++ j :: ys) (hxs : k ∉ xs) :
    (compare j k).isLE := by
  have hmem : k ∈ xs ++ j :: ys := h ▸ TreeMap.mem_keys.mpr hk
  have hsorted : (xs ++ j :: ys).Pairwise (fun a b => compare a b = .lt) := h ▸ t.ordered_keys
  rcases List.mem_append.mp hmem with hmem | hmem
  · exact (hxs hmem).elim
  rcases List.mem_cons.mp hmem with rfl | hmem
  · simp [ReflCmp.compare_self]
  · have hlt := List.rel_of_pairwise_cons (List.pairwise_append.mp hsorted).2.1 hmem
    simp [hlt]

theorem first_le {t : TreeMap α β} (hk : k ∈ t) : ∃ j, first t = some j ∧ (compare j k).isLE := by
  cases h : t.keys with
  | nil => simp [← TreeMap.mem_keys, h] at hk
  | cons j ys =>
    have hkeys : t.keys = [] ++ j :: ys := h
    exact ⟨j, by simp [first, h], keys_split hk hkeys List.not_mem_nil⟩

theorem next_le {t : TreeMap α β} (hk : k ∈ t) (hlt : compare i k = .lt) :
    ∃ j, next t i = some j ∧ (compare j k).isLE := by
  cases h : next t i with
  | none => simpa [hlt] using List.find?_eq_none.mp h k (TreeMap.mem_keys.mpr hk)
  | some j =>
    obtain ⟨-, xs, ys, hkeys, hxs⟩ := List.find?_eq_some_iff_append.mp h
    refine ⟨j, rfl, keys_split hk hkeys ?_⟩
    intro hmem
    simpa [hlt] using hxs k hmem

omit [TransOrd α] [LawfulEqOrd α] in
theorem lt_of_next {t : TreeMap α β} (h : next t i = some j) : compare i j = .lt := by
  simpa using List.find?_some h

theorem mem_of_first {t : TreeMap α β} (h : first t = some k) : k ∈ t :=
  TreeMap.mem_keys.mp (List.mem_of_head? h)

theorem mem_of_next {t : TreeMap α β} (h : next t i = some j) : j ∈ t :=
  TreeMap.mem_keys.mp (List.mem_of_find?_eq_some h)

omit [LawfulEqOrd α] in
theorem mem_iff_exists {t : TreeMap α β} : k ∈ t ↔ ∃ v, t[k]? = some v := by
  rw [TreeMap.mem_iff_isSome_getElem?, Option.isSome_iff_exists]

omit [LawfulEqOrd α] in
theorem mem_of_eq_some {t : TreeMap α β} (h : t[k]? = some v) : k ∈ t := mem_iff_exists.mpr ⟨v, h⟩

def countFrom (t : TreeMap α β) (k : α) : Nat := t.keys.countP fun k' => (compare k k').isLE

omit [LawfulEqOrd α] in
theorem countP_le_of_lt (h : compare i j = .lt) (l : List α) :
    l.countP (fun k => (compare j k).isLE) ≤ l.countP fun k => (compare i k).isLE := by
  refine List.countP_mono_left fun k _ hk => ?_
  exact TransCmp.isLE_trans (by simp [h]) hk

omit [LawfulEqOrd α] in
theorem countFrom_le (t : TreeMap α β) (h : compare i j = .lt) : countFrom t j ≤ countFrom t i :=
  countP_le_of_lt h t.keys

theorem countFrom_lt {t : TreeMap α β} (h : compare i j = .lt) (hi : i ∈ t) :
    countFrom t j < countFrom t i := by
  obtain ⟨xs, ys, hkeys⟩ := List.append_of_mem (TreeMap.mem_keys.mpr hi)
  have hbehind : ¬(compare j i).isLE := by simp [OrientedCmp.gt_of_lt h]
  have hself : (compare i i).isLE := by simp [ReflCmp.compare_self]
  unfold countFrom
  simp only [hkeys, List.countP_append, List.countP_cons, hbehind, hself]
  exact Nat.add_lt_add_of_le_of_lt (countP_le_of_lt h xs) (Nat.lt_succ_of_le (countP_le_of_lt h ys))

theorem nodup_toList (t : TreeMap α β) : t.toList.Nodup := by
  refine t.ordered_keys_toList.imp ?_
  rintro a _ hlt rfl
  simp [ReflCmp.compare_self] at hlt

theorem toList_perm_erase (t : TreeMap α β) (k : α) :
    t.toList.Perm (t[k]?.toList.map (fun v => (k, v)) ++ (t.erase k).toList) := by
  have hnodup : (t[k]?.toList.map (fun v => (k, v)) ++ (t.erase k).toList).Nodup := by
    refine List.nodup_append.mpr ⟨?_, nodup_toList _, ?_⟩
    · cases t[k]? <;> simp
    · rintro ⟨k', v⟩ hmem _ hrest rfl
      obtain ⟨v', -, heq⟩ := List.mem_map.mp hmem
      cases heq
      simp [TreeMap.mem_toList_iff_getElem?_eq_some] at hrest
  refine (List.perm_ext_iff_of_nodup (nodup_toList t) hnodup).mpr ?_
  rintro ⟨k', v⟩
  simp only [TreeMap.mem_toList_iff_getElem?_eq_some, List.mem_append, List.mem_map, Option.mem_toList,
    Prod.mk.injEq, TreeMap.getElem?_erase, LawfulEqCmp.compare_eq_iff_eq]
  rcases eq_or_ne k k' with rfl | hne
  · simp
  · simp [hne]

theorem toList_perm_insert (t : TreeMap α β) (k : α) (v : β) :
    (t.insert k v).toList.Perm ((k, v) :: (t.erase k).toList) := by
  refine (toList_perm_erase (t.insert k v) k).trans ?_
  rw [TreeMap.getElem?_insert_self]
  refine List.Perm.cons (k, v) ((List.perm_ext_iff_of_nodup (nodup_toList _) (nodup_toList _)).mpr ?_)
  rintro ⟨k', v'⟩
  simp only [TreeMap.mem_toList_iff_getElem?_eq_some, TreeMap.getElem?_erase, TreeMap.getElem?_insert]
  split <;> simp [*]

omit [TransOrd α] [LawfulEqOrd α] in
theorem pairwise_filterMap {l : List (α × β)}
    (h : l.Pairwise fun a b => compare a.1 b.1 = .lt) (f : α → β → Option γ) :
    (l.filterMap fun x => (f x.1 x.2).map fun c => (x.1, c)).Pairwise
      fun a b => compare a.1 b.1 = .lt := by
  rw [List.pairwise_filterMap]
  refine h.imp ?_
  rintro ⟨a, x⟩ ⟨b, y⟩ hab _ h₁ _ h₂
  simp only [Option.map_eq_some_iff] at h₁ h₂
  obtain ⟨_, -, rfl⟩ := h₁
  obtain ⟨_, -, rfl⟩ := h₂
  exact hab

/-- The entries `l`, each with what `t` holds at its key, if anything. -/
def joinList (l : List (α × β)) (t : TreeMap α γ) : List (α × β × γ) :=
  l.filterMap fun x => (t[x.1]?.map fun c => (x.2, c)).map fun bc => (x.1, bc)

omit [TransOrd α] [LawfulEqOrd α] in
theorem joinList_cons_none {t : TreeMap α γ} {x : α × β} (h : t[x.1]? = none) (l : List (α × β)) :
    joinList (x :: l) t = joinList l t := by
  simp [joinList, h]

omit [TransOrd α] [LawfulEqOrd α] in
theorem joinList_cons_some {t : TreeMap α γ} {x : α × β} (h : t[x.1]? = some c) (l : List (α × β)) :
    joinList (x :: l) t = (x.1, x.2, c) :: joinList l t := by
  simp [joinList, h]

/-- The entries of `t₁` and `t₂` at their common keys, by a walk over `t₁`. -/
def join (t₁ : TreeMap α β) (t₂ : TreeMap α γ) : List (α × β × γ) := joinList t₁.toList t₂

theorem mem_join {t₁ : TreeMap α β} {t₂ : TreeMap α γ} :
    (k, b, c) ∈ join t₁ t₂ ↔ t₁[k]? = some b ∧ t₂[k]? = some c := by
  simp only [join, joinList, List.mem_filterMap, Prod.exists,
    TreeMap.mem_toList_iff_getElem?_eq_some, Option.map_map, Option.map_eq_some_iff,
    Function.comp_apply, Prod.mk.injEq]
  constructor
  · rintro ⟨k', b', hb, c', hc, rfl, rfl, rfl⟩
    exact ⟨hb, hc⟩
  · rintro ⟨hb, hc⟩
    exact ⟨k, b, hb, c, hc, rfl, rfl, rfl⟩

omit [LawfulEqOrd α] in
theorem pairwise_join (t₁ : TreeMap α β) (t₂ : TreeMap α γ) :
    (join t₁ t₂).Pairwise fun a b => compare a.1 b.1 = .lt :=
  pairwise_filterMap t₁.ordered_keys_toList fun k b => t₂[k]?.map fun c => (b, c)

/-- A walk over `t₂` finds the same entries in the same order. -/
theorem join_comm (t₁ : TreeMap α β) (t₂ : TreeMap α γ) :
    join t₁ t₂ = (join t₂ t₁).map fun x => (x.1, x.2.2, x.2.1) := by
  have hirrefl : Std.Irrefl fun a b : α × β × γ => compare a.1 b.1 = .lt :=
    ⟨fun a h => by simp [ReflCmp.compare_self] at h⟩
  have hantisymm : Std.Antisymm fun a b : α × β × γ => compare a.1 b.1 = .lt :=
    ⟨fun a b h h' => by simp [OrientedCmp.gt_of_lt h] at h'⟩
  refine (pairwise_join t₁ t₂).eq_of_mem_iff ((pairwise_join t₂ t₁).map _ fun _ _ => id) ?_
  rintro ⟨k, b, c⟩
  simp only [mem_join, List.mem_map, Prod.exists, Prod.mk.injEq]
  constructor
  · rintro ⟨hb, hc⟩
    exact ⟨k, c, b, ⟨hc, hb⟩, rfl, rfl, rfl⟩
  · rintro ⟨k', c', b', ⟨hc, hb⟩, rfl, rfl, rfl⟩
    exact ⟨hb, hc⟩

end Machines.OrderedMap
