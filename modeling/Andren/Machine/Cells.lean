import Andren.Machine.Handles

/-!
# Cells with one owner

Memory cells are allocated, read, written and freed through pointers, of which null is one. A
program whose objects have a cell each, and no cells besides (`Owns`), can be told from the
values in the cells alone: what it does to its pointers happens to the values as well, no
access goes wrong, and nothing is freed twice or left behind.
-/

namespace Machines

abbrev Cells (ν : Type u) (α : Type v) := ν → Option α

namespace Cells

variable {ν : Type u} {α : Type v}

/-- Null and the pointers to freed cells cannot be read. -/
def load (h : Cells ν α) (p : Option ν) : Option α := p.bind h

def swap {β : Type w} (ps : List β) (i j : Nat) : Option (List β) := do
  let p ← ps[i]?
  let q ← ps[j]?
  pure ((ps.set i q).set j p)

theorem swap_last {β : Type w} {ps : List β} {p : β} {i : Nat} (hp : ps[i]? = some p) (q : β) :
    swap (ps ++ [q]) ps.length i = some (ps.set i q ++ [p]) := by
  obtain ⟨hi, -⟩ := List.getElem?_eq_some_iff.mp hp
  have hget : (ps ++ [q])[i]? = some p := (List.getElem?_append_left hi).trans hp
  simp only [swap, List.getElem?_concat_length, hget, Option.bind_eq_bind, Option.bind_some, Option.pure_def]
  rw [List.set_append_right _ _ (Nat.le_refl _), Nat.sub_self, List.set_cons_zero, List.set_append_left _ _ hi]

theorem eraseIdx_concat {β : Type w} (ps : List β) (q : β) : (ps ++ [q]).eraseIdx ps.length = ps := by
  rw [List.eraseIdx_append_of_length_le (Nat.le_refl _), Nat.sub_self, List.eraseIdx_cons_zero, List.append_nil]

/-- Each of `ps` points to a cell of its own, with what is in `xs` at its place, and there are
no other cells. -/
structure Owns (h : Cells ν α) (ps : List (Option ν)) (xs : List α) : Prop where
  points : ps.map (load h) = xs.map some
  nodup : ps.Nodup
  all : ∀ n, (h n).isSome = true → some n ∈ ps

theorem owns_nil : Owns (fun _ => none : Cells ν α) [] [] := ⟨rfl, .nil, nofun⟩

section

variable {h : Cells ν α} {ps : List (Option ν)} {xs : List α} {i : Nat}

theorem Owns.getElem? (ho : Owns h ps xs) (i : Nat) : ps[i]?.map (load h) = xs[i]?.map some := by
  rw [← List.getElem?_map, ← List.getElem?_map, ho.points]

theorem Owns.length (ho : Owns h ps xs) : ps.length = xs.length := by
  simpa using congrArg List.length ho.points

theorem Owns.load (ho : Owns h ps xs) (hp : ps[i]? = some p) : ∃ x, xs[i]? = some x ∧ load h p = some x := by
  have heq := ho.getElem? i
  rw [hp] at heq
  obtain ⟨x, hx, heq⟩ := Option.map_eq_some_iff.mp heq.symm
  exact ⟨x, hx, heq.symm⟩

theorem Owns.cell (ho : Owns h ps xs) (hp : ps[i]? = some p) :
    ∃ n x, p = some n ∧ h n = some x ∧ xs[i]? = some x := by
  obtain ⟨x, hx, hload⟩ := ho.load hp
  obtain ⟨n, rfl, hn⟩ := Option.bind_eq_some_iff.mp hload
  exact ⟨n, x, rfl, hn, hx⟩

theorem Owns.fresh (ho : Owns h ps xs) (hn : h n = none) : some n ∉ ps := by
  intro hmem
  obtain ⟨i, hi⟩ := List.mem_iff_getElem?.mp hmem
  obtain ⟨m, x, hm, hx, -⟩ := ho.cell hi
  cases hm
  rw [hn] at hx
  cases hx

theorem Owns.swap (ho : Owns h ps xs) (hs : Cells.swap ps i j = some ps') :
    ∃ xs', Cells.swap xs i j = some xs' ∧ Owns h ps' xs' := by
  obtain ⟨p, hp, hs⟩ := Option.bind_eq_some_iff.mp hs
  obtain ⟨q, hq, hs⟩ := Option.bind_eq_some_iff.mp hs
  cases hs
  obtain ⟨x, hx, hpx⟩ := ho.load hp
  obtain ⟨y, hy, hqy⟩ := ho.load hq
  have hperm := flatMap_swap (fun p => [p]) hp hq
  simp only [List.flatMap_singleton'] at hperm
  refine ⟨(xs.set i y).set j x, by simp [Cells.swap, hx, hy], ?_, hperm.nodup_iff.mpr ho.nodup, ?_⟩
  · rw [List.map_set, List.map_set, List.map_set, List.map_set, ho.points, hpx, hqy]
  · intro n hn
    exact hperm.mem_iff.mpr (ho.all n hn)

/-- An object exchanges its cell with the temporary behind the others. -/
theorem Owns.swap_last (ho : Owns h (ps ++ [q]) (xs ++ [z])) (hi : i < ps.length) :
    ∃ p x, ps[i]? = some p ∧ xs[i]? = some x ∧ Cells.swap (ps ++ [q]) ps.length i = some (ps.set i q ++ [p]) ∧
      Owns h (ps.set i q ++ [p]) (xs.set i z ++ [x]) := by
  have hlength : ps.length = xs.length := by simpa using ho.length
  have hp := List.getElem?_eq_getElem hi
  have hx := List.getElem?_eq_getElem (hlength ▸ hi)
  have hswap := Cells.swap_last hp q
  obtain ⟨xs', hxs, ho'⟩ := ho.swap hswap
  rw [hlength, Cells.swap_last hx z] at hxs
  cases hxs
  exact ⟨_, _, hp, hx, hswap, ho'⟩

end

section

variable [DecidableEq ν] {h : Cells ν α} {ps : List (Option ν)} {xs : List α} {i : Nat}

/-- A pointer that is not to be written through is a fault. -/
def store (h : Cells ν α) : Option ν → α → Option (Cells ν α)
  | none, _ => none
  | some n, x => if (h n).isSome then some (Function.update h n (some x)) else none

/-- Null is freed without effect. -/
def free (h : Cells ν α) : Option ν → Option (Cells ν α)
  | none => some h
  | some n => if (h n).isSome then some (Function.update h n none) else none

theorem map_load_update {o : Option α} (hne : some n ∉ ps) :
    ps.map (load (Function.update h n o)) = ps.map (load h) := by
  refine List.map_congr_left fun p hp => ?_
  cases p with
  | none => rfl
  | some m =>
    refine Function.update_of_ne ?_ ..
    rintro rfl
    exact hne hp

theorem Owns.new (ho : Owns h ps xs) (hn : h n = none) (x : α) :
    Owns (Function.update h n (some x)) (ps ++ [some n]) (xs ++ [x]) := by
  have hfresh := ho.fresh hn
  refine ⟨?_, ?_, ?_⟩
  · rw [List.map_append, map_load_update hfresh, ho.points]
    simp [Cells.load]
  · exact List.Nodup.append ho.nodup (List.nodup_singleton _) (by simpa using hfresh)
  · intro m hm
    rcases eq_or_ne m n with rfl | hne
    · simp
    · rw [Function.update_of_ne hne] at hm
      exact List.mem_append_left _ (ho.all m hm)

theorem Owns.store (ho : Owns h ps xs) (hp : ps[i]? = some p) (x : α) :
    ∃ h', store h p x = some h' ∧ Owns h' ps (xs.set i x) := by
  obtain ⟨n, y, rfl, hn, hy⟩ := ho.cell hp
  refine ⟨_, if_pos (by rw [hn]; rfl), ?_, ho.nodup, ?_⟩
  · obtain ⟨hi, hget⟩ := List.getElem?_eq_some_iff.mp hp
    rw [List.map_set, ← ho.points]
    refine List.ext_getElem (by simp) fun j hj hj' => ?_
    have hj₀ : j < ps.length := by simpa using hj
    rw [List.getElem_set]
    split
    · rename_i heq
      subst heq
      simp [hget, Cells.load]
    · rename_i hne
      have hne' : ps[j] ≠ some n := by
        intro heq
        exact hne ((ho.nodup.getElem_inj_iff).mp (hget.trans heq.symm))
      simp only [List.getElem_map]
      cases hpj : ps[j] with
      | none => rfl
      | some m => exact Function.update_of_ne (fun heq => hne' (by rw [hpj, heq])) ..
  · intro m hm
    rcases eq_or_ne m n with rfl | hne
    · exact List.mem_of_getElem? hp
    · rw [Function.update_of_ne hne] at hm
      exact ho.all m hm

theorem Owns.free (ho : Owns h ps xs) (hp : ps[i]? = some p) :
    ∃ h', free h p = some h' ∧ Owns h' (ps.eraseIdx i) (xs.eraseIdx i) := by
  obtain ⟨n, y, rfl, hn, -⟩ := ho.cell hp
  have hperm := perm_eraseIdx hp
  have hnot := (List.nodup_cons.mp (hperm.nodup_iff.mp ho.nodup)).1
  refine ⟨_, if_pos (by rw [hn]; rfl), ?_, ho.nodup.eraseIdx i, ?_⟩
  · rw [map_load_update hnot, ← List.eraseIdx_map, ho.points, List.eraseIdx_map]
  · intro m hm
    rcases eq_or_ne m n with rfl | hne
    · simp at hm
    · rw [Function.update_of_ne hne] at hm
      rcases List.mem_cons.mp (hperm.mem_iff.mp (ho.all m hm)) with heq | hmem
      · exact absurd (Option.some.inj heq) hne
      · exact hmem

theorem Owns.free_last (ho : Owns h (ps ++ [p]) (xs ++ [x])) : ∃ h', Cells.free h p = some h' ∧ Owns h' ps xs := by
  have hlength : ps.length = xs.length := by simpa using ho.length
  obtain ⟨h', hfree, ho'⟩ := ho.free List.getElem?_concat_length
  rw [eraseIdx_concat, hlength, eraseIdx_concat] at ho'
  exact ⟨h', hfree, ho'⟩

end

end Cells

end Machines
