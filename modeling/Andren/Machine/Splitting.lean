import Mathlib.Data.List.Infix
import Mathlib.Data.Nat.Find

/-!
# Splitting a list

A list splits at a delimiter when it is the pieces joined with it, no piece has the
delimiter inside, and there is one piece more than the delimiter occurs, counted from the
left without overlaps (`Splits`). The piece in front of the first occurrence, with a
splitting of what is behind it, is a splitting (`splits_cons`).
-/

namespace Machines

variable {α : Type u} [DecidableEq α] {d s p r : List α}

/-- How often `d` occurs behind the first `k` elements, from the left and without overlaps. -/
def scan (d : List α) : Nat → List α → Nat
  | _, [] => 0
  | k + 1, _ :: s => scan d k s
  | 0, a :: s => if d <+: a :: s then scan d (d.length - 1) s + 1 else scan d 0 s

def occurrences (d s : List α) : Nat := scan d 0 s

structure Splits (d s : List α) (ps : List (List α)) : Prop where
  nonempty : ps ≠ []
  join : d.intercalate ps = s
  clean : ∀ p ∈ ps, ¬d <:+: p
  length : ps.length = occurrences d s + 1

theorem scan_drop (d : List α) (k : Nat) (s : List α) : scan d k s = occurrences d (s.drop k) := by
  induction s generalizing k with
  | nil => simp [scan, occurrences]
  | cons a s ih =>
    cases k with
    | zero => rfl
    | succ k => exact ih k

theorem scan_le (d : List α) (k : Nat) (s : List α) : scan d k s ≤ s.length := by
  induction s generalizing k with
  | nil => exact Nat.le_refl _
  | cons a s ih =>
    cases k with
    | succ k => exact Nat.le_succ_of_le (ih k)
    | zero =>
      rw [scan]
      split
      · exact Nat.succ_le_succ (ih _)
      · exact Nat.le_succ_of_le (ih 0)

theorem occurrences_le (d s : List α) : occurrences d s ≤ s.length := scan_le d 0 s

theorem occurrences_zero (h : ¬d <:+: s) : occurrences d s = 0 := by
  induction s with
  | nil => rfl
  | cons a s ih =>
    rw [List.infix_cons_iff, not_or] at h
    exact (if_neg h.1).trans (ih h.2)

theorem occurrences_append (hd : d ≠ []) (hfirst : ∀ p' r', p ++ d ++ r = p' ++ d ++ r' → p.length ≤ p'.length) :
    occurrences d (p ++ d ++ r) = occurrences d r + 1 := by
  induction p with
  | nil =>
    obtain ⟨a, d', rfl⟩ := List.exists_cons_of_ne_nil hd
    have hprefix : a :: d' <+: a :: (d' ++ r) := ⟨r, rfl⟩
    simp only [List.nil_append, List.cons_append, occurrences, scan]
    rw [if_pos hprefix, scan_drop]
    simp [occurrences]
  | cons a p ih =>
    have hno : ¬d <+: a :: (p ++ d ++ r) := by
      rintro ⟨r', hr'⟩
      have hle := hfirst [] r' hr'.symm
      simp at hle
    simp only [List.cons_append, occurrences, scan]
    rw [if_neg hno]
    refine ih fun p' r' heq => ?_
    have hle := hfirst (a :: p') r' (congrArg (a :: ·) heq)
    simpa using hle

theorem dropInfix_none (h : s.dropInfix? d = none) : ¬d <:+: s := by
  rintro ⟨p, r, hs⟩
  -- the shortest of the lists that `d` stands behind
  classical
  have hex : ∃ n p r, s = p ++ d ++ r ∧ p.length = n := ⟨p.length, p, r, hs.symm, rfl⟩
  obtain ⟨p₀, r₀, hs₀, hlength⟩ := Nat.find_spec hex
  have hsome : s.dropInfix? d = some (p₀, r₀) := by
    refine List.dropInfix?_eq_some_iff.mpr ⟨⟨d, hs₀, beq_self_eq_true d⟩, fun p' d' r' hs' hd' => ?_⟩
    obtain rfl := beq_iff_eq.mp hd'
    rw [hlength]
    exact Nat.find_min' hex ⟨p', r', hs', rfl⟩
  exact nomatch h.symm.trans hsome

theorem dropInfix_singleton (s : List α) (a : α) : (s.dropInfix? [a]).map (·.1.length) = s.idxOf? a := by
  cases h : s.dropInfix? [a] with
  | none =>
    have hno : a ∉ s := fun ha => dropInfix_none h ((List.singleton_infix_iff a s).mpr ha)
    exact (List.idxOf?_eq_none_iff.mpr hno).symm
  | some q =>
    obtain ⟨p, r⟩ := q
    obtain ⟨⟨_, rfl, heq⟩, hfirst⟩ := List.dropInfix?_eq_some_iff.mp h
    obtain rfl := beq_iff_eq.mp heq
    refine (List.idxOf?_eq_some_iff.mpr ⟨by simp, by simp, fun j hj hget => ?_⟩).symm
    have hj : j < p.length := hj
    have hget : p[j] = a := by simpa [List.getElem_append_left, hj] using hget
    have hsame : p ++ [a] ++ r = p.take j ++ [a] ++ (p.drop (j + 1) ++ [a] ++ r) := by
      conv_lhs => rw [← List.take_append_drop j p, ← List.getElem_cons_drop (h := hj), hget]
      simp
    have hle := hfirst _ _ _ hsame (beq_self_eq_true _)
    rw [List.length_take] at hle
    omega

theorem splits_single (h : s.dropInfix? d = none) : Splits d s [s] := by
  have hclean := dropInfix_none h
  refine ⟨List.cons_ne_nil _ _, List.intercalate_singleton, fun p hp => ?_, ?_⟩
  · rwa [List.mem_singleton.mp hp]
  · rw [occurrences_zero hclean]
    rfl

theorem splits_cons (hd : d ≠ []) (h : s.dropInfix? d = some (p, r)) (hr : Splits d r ps) :
    s = p ++ d ++ r ∧ Splits d s (p :: ps) := by
  obtain ⟨⟨d', rfl, heq⟩, hfirst⟩ := List.dropInfix?_eq_some_iff.mp h
  obtain rfl := beq_iff_eq.mp heq
  refine ⟨rfl, List.cons_ne_nil _ _, ?_, fun q hq => ?_, ?_⟩
  · obtain ⟨q, ps, rfl⟩ := List.exists_cons_of_ne_nil hr.nonempty
    rw [List.intercalate_cons_cons, hr.join]
  · rcases List.mem_cons.mp hq with rfl | hq
    · rintro ⟨a, b, rfl⟩
      have hle := hfirst a d' (b ++ d' ++ r) (by simp) heq
      have hpos := List.length_pos_iff.mpr hd
      simp only [List.length_append] at hle
      omega
    · exact hr.clean q hq
  · rw [List.length_cons, hr.length, occurrences_append hd]
    intro p' r' hsame
    exact hfirst p' d' r' hsame heq

end Machines
