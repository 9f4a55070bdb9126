import Andren.Machine.Basic
import Mathlib.Data.List.Count

/-!
# Progress

Some events are goals, and a number bounds the steps of interest that are left until so many goals
have been reached. A step of interest lowers it, and what raises it is counted. When enough steps
of interest have been taken the goals have been reached, whatever other steps came between
(`Progress.reached`).
-/

namespace Machines

open Machine

/-- `inv r s` is what is needed in `s` to reach `r` goals. -/
structure Progress (M : Machine σ α ε) (ok : α → Prop) where
  counts : α → Bool
  delays : ε → Bool
  goal : ε → Bool
  inv : Nat → σ → Prop
  left : Nat → σ → Nat
  left_pos : ∀ {r s}, inv r s → 0 < r → 0 < left r s
  step : ∀ {r s a s' es}, inv r s → ok a → M.step s a = some (s', es) → es.countP goal < r →
    inv (r - es.countP goal) s' ∧
      left (r - es.countP goal) s' + [a].countP counts ≤ left r s + es.countP delays

namespace Progress

variable {M : Machine σ α ε} {ok : α → Prop} (P : Progress M ok)

theorem replay (hinv : P.inv r s) (hok : ∀ a ∈ as, ok a) (h : M.replay s as = some (s', tr))
    (hgoal : tr.countP P.goal < r) :
    P.inv (r - tr.countP P.goal) s' ∧
      P.left (r - tr.countP P.goal) s' + as.countP P.counts ≤ P.left r s + tr.countP P.delays := by
  induction as using List.reverseRecOn generalizing s' tr with
  | nil =>
    cases h
    exact ⟨hinv, Nat.le_refl _⟩
  | append_singleton as b ih =>
    obtain ⟨s₁, tr₁, es, hr, hs, rfl⟩ := replay_snoc.mp h
    rw [List.countP_append] at hgoal
    obtain ⟨hinv₁, hleft₁⟩ := ih (fun a ha => hok a (List.mem_append_left _ ha)) hr (by omega)
    obtain ⟨hinv', hleft'⟩ := P.step hinv₁ (hok b (by simp)) hs (by omega)
    rw [List.countP_append, List.countP_append, List.countP_append, ← Nat.sub_sub]
    exact ⟨hinv', by omega⟩

theorem reached (hinv : P.inv r s) (hok : ∀ a ∈ as, ok a) (h : M.replay s as = some (s', tr))
    (henough : P.left r s + tr.countP P.delays ≤ as.countP P.counts) : r ≤ tr.countP P.goal := by
  refine Nat.le_of_not_lt fun hgoal => ?_
  obtain ⟨hinv', hleft⟩ := P.replay hinv hok h hgoal
  have hpos := P.left_pos hinv' (by omega)
  omega

end Progress

end Machines
