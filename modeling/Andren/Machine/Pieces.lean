import Mathlib.Algebra.Ring.Nat
import Mathlib.Data.List.Nodup

/-!
# Writing in pieces

A list is written piece by piece, and of each piece a front is written. What is written then
is a front of the whole if and only if nothing follows a piece that was cut short
(`written_prefix_iff`).
-/

namespace Machines

/-- The pieces, each with how many of its elements were written. -/
def whole (ws : List (List α × Nat)) : List α := ws.flatMap Prod.fst

def written (ws : List (List α × Nat)) : List α := ws.flatMap fun w => w.1.take w.2

section

variable {ws : List (List α × Nat)}

@[simp] theorem whole_nil : whole ([] : List (List α × Nat)) = [] := rfl

@[simp] theorem whole_cons (w : List α × Nat) : whole (w :: ws) = w.1 ++ whole ws := rfl

@[simp] theorem written_nil : written ([] : List (List α × Nat)) = [] := rfl

@[simp] theorem written_cons (w : List α × Nat) : written (w :: ws) = w.1.take w.2 ++ written ws := rfl

theorem written_of_full (h : ∀ w ∈ ws, w.1.length ≤ w.2) : written ws = whole ws := by
  induction ws with
  | nil => rfl
  | cons w ws ih =>
    rw [written_cons, List.take_of_length_le (h w (.head _)), ih fun v hv => h v (.tail _ hv), whole_cons]

theorem mem_whole_of_written (h : x ∈ written ws) : x ∈ whole ws := by
  obtain ⟨w, hw, hx⟩ := List.mem_flatMap.mp h
  exact List.mem_flatMap.mpr ⟨w, hw, List.mem_of_mem_take hx⟩

theorem length_written (hle : ∀ w ∈ ws, w.2 ≤ w.1.length) : (written ws).length = (ws.map Prod.snd).sum := by
  induction ws with
  | nil => rfl
  | cons w ws ih => simp [hle w (.head _), ih fun v hv => hle v (.tail _ hv)]

theorem written_eq_nil_iff (hle : ∀ w ∈ ws, w.2 ≤ w.1.length) : written ws = [] ↔ ∀ w ∈ ws, w.2 = 0 := by
  rw [← List.length_eq_zero_iff, length_written hle, List.sum_eq_zero_iff_forall_eq_nat, List.forall_mem_map]

/-- Behind a piece that was cut short there is no place for anything else. -/
theorem written_prefix_short (hnodup : (whole (w :: ws)).Nodup) (hshort : w.2 < w.1.length) :
    written (w :: ws) <+: whole (w :: ws) ↔ written ws = [] := by
  rw [written_cons, whole_cons]
  constructor
  · intro h
    have hsplit : w.1 ++ whole ws = w.1.take w.2 ++ (w.1.drop w.2 ++ whole ws) := by
      rw [← List.append_assoc, List.take_append_drop]
    rw [hsplit, List.prefix_append_right_inj] at h
    cases hrest : written ws with
    | nil => rfl
    | cons x xs =>
      have hdrop : w.1.drop w.2 = w.1[w.2] :: w.1.drop (w.2 + 1) := List.drop_eq_getElem_cons hshort
      rw [hrest, hdrop, List.cons_append, List.cons_prefix_cons] at h
      have hpiece : x ∈ w.1 := h.1 ▸ List.getElem_mem hshort
      have hwhole : x ∈ whole ws := mem_whole_of_written (hrest ▸ .head _)
      rw [whole_cons] at hnodup
      exact absurd hwhole (List.disjoint_of_nodup_append hnodup hpiece)
  · intro h
    rw [h, List.append_nil]
    exact (List.take_prefix _ _).trans (List.prefix_append _ _)

/-- The elements are all different, so that each has one place in the whole. -/
theorem written_prefix_iff (hnodup : (whole ws).Nodup) (hle : ∀ w ∈ ws, w.2 ≤ w.1.length) :
    written ws <+: whole ws ↔ ws.Pairwise fun a b => a.2 < a.1.length → b.2 = 0 := by
  induction ws with
  | nil => simp
  | cons w ws ih =>
    have hle' : ∀ v ∈ ws, v.2 ≤ v.1.length := fun v hv => hle v (.tail _ hv)
    rw [List.pairwise_cons]
    rcases Nat.lt_or_ge w.2 w.1.length with hshort | hfull
    · rw [written_prefix_short hnodup hshort, written_eq_nil_iff hle']
      constructor
      · intro h
        exact ⟨fun b hb _ => h b hb, List.pairwise_of_forall_mem_list fun _ _ b hb _ => h b hb⟩
      · rintro ⟨h, -⟩ b hb
        exact h b hb hshort
    · rw [written_cons, whole_cons, List.take_of_length_le hfull, List.prefix_append_right_inj,
        ih (List.nodup_append.mp hnodup).2.1 hle']
      exact (and_iff_right fun b _ hlt => absurd hlt (Nat.not_lt.mpr hfull)).symm

end

end Machines
