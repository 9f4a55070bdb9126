import Mathlib.Algebra.Order.Ring.Nat
import Mathlib.Data.List.Basic

/-!
# Overlays

Pieces laid one over the other, all from the same beginning. What is seen at a place is the
last piece that reaches it (`getElem?_overlays`), and nothing gets longer than the longest
piece; so the pieces stand side by side only when at most one of them has anything in it
(`overlays_append_iff`).
-/

namespace Machines

open scoped List

def overlay (base d : List α) : List α := d ++ base.drop d.length

def overlays (base : List α) (ds : List (List α)) : List α := ds.foldl overlay base

/-- How many of the pieces have anything in them. -/
def substantial (ds : List (List α)) : Nat := ds.countP fun d => !d.isEmpty

theorem overlays_cons (base d : List α) (ds : List (List α)) :
    overlays base (d :: ds) = overlays (overlay base d) ds := rfl

theorem overlay_nil (base : List α) : overlay base [] = base := rfl

theorem nil_overlay (d : List α) : overlay [] d = d := by
  rw [overlay, List.drop_nil, List.append_nil]

theorem length_overlay (base d : List α) : (overlay base d).length = max base.length d.length := by
  rw [overlay, List.length_append, List.length_drop]
  omega

theorem getElem?_overlay (base d : List α) (i : Nat) : (overlay base d)[i]? = d[i]?.or base[i]? := by
  rcases Nat.lt_or_ge i d.length with hlt | hge
  · rw [overlay, List.getElem?_append_left hlt, List.getElem?_eq_getElem hlt, Option.some_or]
  · rw [overlay, List.getElem?_append_right hge, List.getElem?_drop, Nat.add_sub_cancel' hge,
      List.getElem?_eq_none hge, Option.none_or]

/-- What stands at `i` is what the last piece has there that reaches so far. -/
theorem getElem?_overlays (base : List α) (ds : List (List α)) (i : Nat) :
    (overlays base ds)[i]? = (base :: ds).reverse.findSome? fun d => d[i]? := by
  induction ds generalizing base with
  | nil => simp [overlays]
  | cons d ds ih =>
    rw [overlays_cons, ih, List.reverse_cons, List.findSome?_append, List.reverse_cons, List.reverse_cons,
      List.findSome?_append, List.findSome?_append, Option.or_assoc]
    simp [getElem?_overlay]

theorem length_overlays_le (base : List α) (ds : List (List α)) :
    (overlays base ds).length ≤ base.length + ds.flatten.length := by
  induction ds generalizing base with
  | nil => simp [overlays]
  | cons d ds ih =>
    have hle := ih (overlay base d)
    rw [length_overlay] at hle
    rw [overlays_cons, List.flatten_cons, List.length_append]
    omega

theorem overlays_eq_append (base : List α) (ds : List (List α)) (h : substantial (base :: ds) ≤ 1) :
    overlays base ds = base ++ ds.flatten := by
  induction ds generalizing base with
  | nil => simp [overlays]
  | cons d ds ih =>
    rw [overlays_cons]
    rcases base with - | ⟨x, base⟩
    · rw [nil_overlay, ih d (by simpa [substantial] using h)]
      rfl
    · rcases d with - | ⟨y, d⟩
      · rw [overlay_nil, ih _ (by simpa [substantial] using h)]
        rfl
      · simp only [substantial, List.countP_cons, List.isEmpty_cons, Bool.not_false, if_true] at h
        omega

/-- Two pieces with anything in them leave less than all of it. -/
theorem length_overlays_lt (base : List α) (ds : List (List α)) (h : 1 < substantial (base :: ds)) :
    (overlays base ds).length < base.length + ds.flatten.length := by
  induction ds generalizing base with
  | nil =>
    have hle : substantial [base] ≤ [base].length := List.countP_le_length
    exact absurd h (Nat.not_lt.mpr hle)
  | cons d ds ih =>
    rw [overlays_cons, List.flatten_cons, List.length_append]
    rcases base with - | ⟨x, base⟩
    · have hlt := ih d (by simpa [substantial] using h)
      rw [nil_overlay]
      simpa using hlt
    · rcases d with - | ⟨y, d⟩
      · have hlt := ih (x :: base) (by simpa [substantial] using h)
        rw [overlay_nil]
        simpa using hlt
      · have hle := length_overlays_le (overlay (x :: base) (y :: d)) ds
        rw [length_overlay] at hle
        simp only [List.length_cons] at hle ⊢
        omega

/-- The pieces stand one behind the other, in some order, just when at most one has anything in it. -/
theorem overlays_append_iff (base : List α) (ds : List (List α)) :
    (∃ ds', ds' ~ ds ∧ overlays base ds = base ++ ds'.flatten) ↔ substantial (base :: ds) ≤ 1 := by
  constructor
  · rintro ⟨ds', hperm, heq⟩
    by_contra hmany
    have hlt := length_overlays_lt base ds (Nat.lt_of_not_ge hmany)
    rw [heq, List.length_append, hperm.flatten.length_eq] at hlt
    exact Nat.lt_irrefl _ hlt
  · intro h
    exact ⟨ds, .rfl, overlays_eq_append base ds h⟩

end Machines
