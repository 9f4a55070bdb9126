import Mathlib.Logic.Basic

/-!
# Properties of traces

A trace grows at its end. `Always q` says that each event met `q` when it was
shown, `Since p q` that one did and that all events after it meet `p`; both are
decided by the last event and the trace before it.
-/

namespace Machines

theorem snoc_split (h : tr ++ [e] = t ++ x :: t') :
    (t = tr ∧ x = e ∧ t' = []) ∨ ∃ u, t' = u ++ [e] ∧ tr = t ++ x :: u := by
  rcases List.eq_nil_or_concat t' with rfl | ⟨u, e', rfl⟩
  · obtain ⟨rfl, he⟩ := List.append_inj' h rfl
    cases he
    exact .inl ⟨rfl, rfl, rfl⟩
  · rw [List.concat_eq_append, ← List.cons_append, ← List.append_assoc] at h
    obtain ⟨rfl, he⟩ := List.append_inj' h rfl
    cases he
    exact .inr ⟨u, List.concat_eq_append, rfl⟩

/-- Each event meets `q` in the trace before it. -/
def Always (q : List ε → ε → Prop) (tr : List ε) : Prop := ∀ t e t', tr = t ++ e :: t' → q t e

section

variable {p : ε → Prop} {q : List ε → ε → Prop}

theorem always_nil : Always q [] := by
  intro t e t' h
  cases t <;> cases h

theorem Always.snoc (h : Always q tr) (he : q tr e) : Always q (tr ++ [e]) := by
  intro t x t' heq
  rcases snoc_split heq with ⟨rfl, rfl, -⟩ | ⟨u, -, heq⟩
  · exact he
  · exact h t x u heq

theorem Always.left (h : Always q (tr ++ tr')) : Always q tr := by
  rintro t e t' rfl
  exact h t e (t' ++ tr') (by simp)

theorem Always.last (h : Always q (tr ++ [e])) : q tr e := h tr e [] rfl

end

/-- The events `es`, shown in turn after the trace `tr`, meet `q`. -/
def AlwaysFrom (q : List ε → ε → Prop) (tr : List ε) : List ε → Prop
  | [] => True
  | e :: es => q tr e ∧ AlwaysFrom q (tr ++ [e]) es

theorem alwaysFrom_of_forall {q : List ε → ε → Prop} (h : ∀ e ∈ es, ∀ t, q t e) : AlwaysFrom q tr es := by
  induction es generalizing tr with
  | nil => trivial
  | cons e es ih => exact ⟨h e (.head _) tr, ih fun e' he' => h e' (.tail _ he')⟩

theorem alwaysFrom_append {q : List ε → ε → Prop} :
    AlwaysFrom q tr (es ++ es') ↔ AlwaysFrom q tr es ∧ AlwaysFrom q (tr ++ es) es' := by
  induction es generalizing tr with
  | nil => simp [AlwaysFrom]
  | cons e es ih => rw [List.cons_append, AlwaysFrom, AlwaysFrom, ih, and_assoc, List.append_cons tr e es]

theorem always_append {q : List ε → ε → Prop} : Always q (tr ++ es) ↔ Always q tr ∧ AlwaysFrom q tr es := by
  induction es generalizing tr with
  | nil => simp [AlwaysFrom]
  | cons e es ih =>
    rw [List.append_cons, ih, AlwaysFrom, ← and_assoc]
    exact and_congr_left fun _ => ⟨fun h => ⟨h.left, h.last⟩, fun ⟨h, he⟩ => h.snoc he⟩

theorem always_iff_alwaysFrom {q : List ε → ε → Prop} : Always q es ↔ AlwaysFrom q [] es :=
  (always_append : Always q ([] ++ es) ↔ _).trans (and_iff_right always_nil)

/-- An event met `q` in the trace before it, and those after it meet `p`. -/
def Since (p : ε → Prop) (q : List ε → ε → Prop) (tr : List ε) : Prop :=
  ∃ t x t', tr = t ++ x :: t' ∧ q t x ∧ ∀ y ∈ t', p y

section

variable {p : ε → Prop} {q : List ε → ε → Prop}

theorem not_since_nil : ¬Since p q [] := by
  rintro ⟨t, x, t', h, -⟩
  cases t <;> cases h

theorem since_snoc : Since p q (t ++ [e]) ↔ q t e ∨ p e ∧ Since p q t := by
  constructor
  · rintro ⟨u, x, u', heq, hq, hp⟩
    rcases snoc_split heq with ⟨rfl, rfl, -⟩ | ⟨v, rfl, rfl⟩
    · exact .inl hq
    · refine .inr ⟨hp e (by simp), u, x, v, rfl, hq, ?_⟩
      intro y hy
      exact hp y (List.mem_append_left _ hy)
  · rintro (hq | ⟨he, u, x, u', rfl, hq, hp⟩)
    · exact ⟨t, e, [], rfl, hq, nofun⟩
    · refine ⟨u, x, u' ++ [e], by simp, hq, ?_⟩
      intro y hy
      rcases List.mem_append.mp hy with hy | hy
      · exact hp y hy
      · rwa [List.mem_singleton.mp hy]

end

end Machines
