import Mathlib.Data.List.Induction
import Mathlib.Logic.Function.Basic

/-!
# Machines

A machine is a guarded, executable step function: an enabled action gives the
next state and the events an observer sees. Runs are finite. What holds of
every run follows from what one step preserves (`Steps.invariant`), and a
machine that refines another shows only traces of the other
(`Refinement.run`).
-/

namespace Machines

/-- `step s a` is the state after `a` and the events it shows, or `none` when
`a` is not enabled in `s`. -/
structure Machine (σ : Type u) (α : Type v) (ε : Type w) where
  init : σ
  step : σ → α → Option (σ × List ε)

namespace Machine

/-- `M.Steps ok s tr s'`: finitely many steps, each of which meets `ok`, lead
from `s` to `s'` and show the events `tr`. -/
inductive Steps (M : Machine σ α ε) (ok : σ → α → Prop) : σ → List ε → σ → Prop
  | refl : Steps M ok s [] s
  | step : Steps M ok s tr s' → ok s' a → M.step s' a = some (s'', es) →
      Steps M ok s (tr ++ es) s''

def anyStep : σ → α → Prop := fun _ _ => True

abbrev RunIf (M : Machine σ α ε) (ok : σ → α → Prop) (tr : List ε) (s : σ) : Prop :=
  M.Steps ok M.init tr s

abbrev Run (M : Machine σ α ε) (tr : List ε) (s : σ) : Prop := M.RunIf anyStep tr s

theorem Steps.one {M : Machine σ α ε} (hok : ok s a) (hs : M.step s a = some (s', es)) :
    M.Steps ok s es s' := .step .refl hok hs

theorem Steps.trans {M : Machine σ α ε} (h : M.Steps ok s tr s') (h' : M.Steps ok s' tr' s'') :
    M.Steps ok s (tr ++ tr') s'' := by
  induction h' with
  | refl => simpa using h
  | step _ hok hs ih =>
    rw [← List.append_assoc]
    exact .step ih hok hs

theorem Steps.mono {M : Machine σ α ε} {ok ok' : σ → α → Prop} (himp : ∀ s a, ok s a → ok' s a)
    (h : M.Steps ok s tr s') : M.Steps ok' s tr s' := by
  induction h with
  | refl => exact .refl
  | step _ hok hs ih => exact .step ih (himp _ _ hok) hs

/-- What holds before the first step and is preserved by every step that a run
takes holds of the whole run. -/
theorem Steps.invariant {M : Machine σ α ε} {I : List ε → σ → Prop} (hinit : I [] s)
    (hstep : ∀ tr s' a s'' es, M.Steps ok s tr s' → I tr s' → ok s' a →
      M.step s' a = some (s'', es) → I (tr ++ es) s'')
    (h : M.Steps ok s tr s') : I tr s' := by
  induction h with
  | refl => exact hinit
  | step hr hok hs ih => exact hstep _ _ _ _ _ hr ih hok hs

theorem Steps.state_invariant {M : Machine σ α ε} {I : σ → Prop} (hinit : I s)
    (hstep : ∀ s' a s'' es, I s' → ok s' a → M.step s' a = some (s'', es) → I s'')
    (h : M.Steps ok s tr s') : I s' :=
  Steps.invariant (I := fun _ s => I s) hinit (fun _ _ _ _ _ _ hi hok hs => hstep _ _ _ _ hi hok hs) h

def replay (M : Machine σ α ε) : σ → List α → Option (σ × List ε)
  | s, [] => some (s, [])
  | s, a :: as => do
    let (s', es) ← M.step s a
    let (s'', tr) ← M.replay s' as
    pure (s'', es ++ tr)

theorem steps_of_replay {M : Machine σ α ε} (h : M.replay s as = some (s', tr)) :
    M.Steps anyStep s tr s' := by
  induction as generalizing s tr with
  | nil =>
    simp only [replay, Option.some.injEq, Prod.mk.injEq] at h
    obtain ⟨rfl, rfl⟩ := h
    exact .refl
  | cons a as ih =>
    simp only [replay, Option.bind_eq_bind, Option.bind_eq_some_iff, Option.pure_def,
      Option.some.injEq, Prod.mk.injEq] at h
    obtain ⟨⟨s₁, es⟩, hs, ⟨s₂, tr'⟩, hr, rfl, rfl⟩ := h
    exact (Steps.one trivial hs).trans (ih hr)

theorem replay_snoc {M : Machine σ α ε} : M.replay s (as ++ [a]) = some (s'', tr') ↔
    ∃ s' tr es, M.replay s as = some (s', tr) ∧ M.step s' a = some (s'', es) ∧ tr' = tr ++ es := by
  induction as generalizing s tr' with
  | nil => rcases hs : M.step s a with _ | ⟨s₁, es⟩ <;> simp [replay, hs, eq_comm]
  | cons b as ih =>
    simp only [List.cons_append, replay, Option.bind_eq_bind, Option.bind_eq_some_iff, Option.pure_def,
      Option.some.injEq, Prod.mk.injEq, Prod.exists]
    constructor
    · rintro ⟨s₁, es₁, hb, s₂, tr₂, hrest, rfl, rfl⟩
      obtain ⟨s', tr, es, hr, hs, rfl⟩ := ih.mp hrest
      exact ⟨s', es₁ ++ tr, es, ⟨s₁, es₁, hb, s', tr, hr, rfl, rfl⟩, hs, (List.append_assoc ..).symm⟩
    · rintro ⟨s', _, es, ⟨s₁, es₁, hb, _, tr, hr, rfl, rfl⟩, hs, rfl⟩
      exact ⟨s₁, es₁, hb, s'', tr ++ es, ih.mpr ⟨_, tr, es, hr, hs, rfl⟩, rfl, (List.append_assoc ..).symm⟩

theorem replay_append {M : Machine σ α ε} (h : M.replay s as = some (s', tr))
    (h' : M.replay s' bs = some (s'', tr')) : M.replay s (as ++ bs) = some (s'', tr ++ tr') := by
  induction bs using List.reverseRecOn generalizing s'' tr' with
  | nil =>
    cases h'
    simpa using h
  | append_singleton bs b ih =>
    obtain ⟨s₁, tr₁, es, hr, hs, rfl⟩ := replay_snoc.mp h'
    rw [← List.append_assoc]
    exact replay_snoc.mpr ⟨s₁, tr ++ tr₁, es, ih hr, hs, (List.append_assoc ..).symm⟩

/-- In the replay of `as` the action `a` is taken in the state `s`, after the events `tr`. -/
def Takes (M : Machine σ α ε) (as : List α) (tr : List ε) (s : σ) (a : α) : Prop :=
  ∃ before, before ++ [a] <+: as ∧ M.replay M.init before = some (s, tr)

theorem takes_snoc {M : Machine σ α ε} :
    M.Takes (as ++ [b]) tr s a ↔ M.Takes as tr s a ∨ a = b ∧ M.replay M.init as = some (s, tr) := by
  constructor
  · rintro ⟨before, hprefix, hr⟩
    rcases List.prefix_concat_iff.mp hprefix with heq | hprefix
    · obtain ⟨rfl, hlast⟩ := List.append_inj' heq rfl
      exact .inr ⟨List.head_eq_of_cons_eq hlast, hr⟩
    · exact .inl ⟨before, hprefix, hr⟩
  · rintro (⟨before, hprefix, hr⟩ | ⟨rfl, hr⟩)
    · exact ⟨before, hprefix.trans (List.prefix_append ..), hr⟩
    · exact ⟨as, List.prefix_rfl, hr⟩

theorem not_takes_nil {M : Machine σ α ε} : ¬M.Takes [] tr s a := by
  rintro ⟨before, hprefix, -⟩
  exact List.append_ne_nil_of_right_ne_nil before (List.cons_ne_nil a []) (List.prefix_nil.mp hprefix)

theorem Takes.before {M : Machine σ α ε} (h : M.Takes as tr s a) : ∃ before,
    M.replay M.init before = some (s, tr) ∧ ∀ {tr' s' a'}, M.Takes before tr' s' a' → M.Takes as tr' s' a' := by
  obtain ⟨before, hprefix, hr⟩ := h
  refine ⟨before, hr, ?_⟩
  rintro tr' s' a' ⟨before', hprefix', hr'⟩
  exact ⟨before', (hprefix'.trans (List.prefix_append ..)).trans hprefix, hr'⟩

theorem Takes.enabled {M : Machine σ α ε} (h : M.Takes as tr s a) (hr : M.replay M.init as = some (s₁, tr₁)) :
    ∃ s' es, M.step s a = some (s', es) := by
  induction as using List.reverseRecOn generalizing s₁ tr₁ with
  | nil => exact absurd h not_takes_nil
  | append_singleton as b ih =>
    obtain ⟨s', tr', es, hr', hs, rfl⟩ := replay_snoc.mp hr
    rcases takes_snoc.mp h with h | ⟨rfl, hsame⟩
    · exact ih h hr'
    · cases hr'.symm.trans hsame
      exact ⟨s₁, es, hs⟩

theorem runIf_of_takes {M : Machine σ α ε} {ok : σ → α → Prop} (h : M.replay M.init as = some (s, tr))
    (hok : ∀ tr' s' a, M.Takes as tr' s' a → ok s' a) : M.RunIf ok tr s := by
  induction as using List.reverseRecOn generalizing s tr with
  | nil =>
    simp only [replay, Option.some.injEq, Prod.mk.injEq] at h
    obtain ⟨rfl, rfl⟩ := h
    exact .refl
  | append_singleton as a ih =>
    obtain ⟨s', tr', es, hr, hs, rfl⟩ := replay_snoc.mp h
    have hrun := ih hr fun tr' s' a htakes => hok tr' s' a (takes_snoc.mpr (.inl htakes))
    exact .step hrun (hok _ _ _ (takes_snoc.mpr (.inr ⟨rfl, hr⟩))) hs

/-- A property that each step keeps just when it meets `ok` holds of the
replays all whose steps meet it, and of no others. -/
theorem iff_forall_takes {M : Machine σ α ε} {I P : List ε → σ → Prop} {ok : σ → α → Prop}
    (hI : I [] M.init) (hP : P [] M.init)
    (hstep : ∀ tr s a s' es, I tr s → M.step s a = some (s', es) →
      I (tr ++ es) s' ∧ (P (tr ++ es) s' ↔ P tr s ∧ ok s a))
    (h : M.replay M.init as = some (s, tr)) :
    I tr s ∧ (P tr s ↔ ∀ tr' s' a, M.Takes as tr' s' a → ok s' a) := by
  induction as using List.reverseRecOn generalizing s tr with
  | nil =>
    simp only [replay, Option.some.injEq, Prod.mk.injEq] at h
    obtain ⟨rfl, rfl⟩ := h
    exact ⟨hI, iff_of_true hP fun _ _ _ htakes => absurd htakes not_takes_nil⟩
  | append_singleton as b ih =>
    obtain ⟨s', tr', es, hr, hs, rfl⟩ := replay_snoc.mp h
    obtain ⟨hi, hiff⟩ := ih hr
    obtain ⟨hi', hiff'⟩ := hstep tr' s' b s es hi hs
    refine ⟨hi', hiff'.trans ?_⟩
    constructor
    · rintro ⟨hp, hok⟩ tr₁ s₁ a htakes
      rcases takes_snoc.mp htakes with htakes | ⟨rfl, hr₁⟩
      · exact hiff.mp hp tr₁ s₁ a htakes
      · cases hr.symm.trans hr₁
        exact hok
    · intro hall
      exact ⟨hiff.mpr fun tr₁ s₁ a htakes => hall tr₁ s₁ a (takes_snoc.mpr (.inl htakes)),
        hall tr' s' b (takes_snoc.mpr (.inr ⟨rfl, hr⟩))⟩

/-- `M` with the actions refused that do not meet `ok`. -/
def only (M : Machine σ α ε) (ok : σ → α → Prop) [∀ s a, Decidable (ok s a)] : Machine σ α ε where
  init := M.init
  step s a := if ok s a then M.step s a else none

theorem steps_of_only {M : Machine σ α ε} {ok : σ → α → Prop} [∀ s a, Decidable (ok s a)]
    (h : (M.only ok).Steps anyStep s tr s') : M.Steps ok s tr s' := by
  induction h with
  | refl => exact .refl
  | step _ _ hs ih =>
    obtain ⟨hok, hs⟩ := Option.ite_none_right_eq_some.mp hs
    exact .step ih hok hs

theorem steps_of_replay_only {M : Machine σ α ε} {ok : σ → α → Prop} [∀ s a, Decidable (ok s a)]
    (h : (M.only ok).replay s as = some (s', tr)) : M.Steps ok s tr s' :=
  steps_of_only (steps_of_replay h)

theorem takes_of_replay_only {M : Machine σ α ε} {ok : σ → α → Prop} [∀ s a, Decidable (ok s a)]
    (h : (M.only ok).replay M.init as = some (s, tr)) :
    M.replay M.init as = some (s, tr) ∧ ∀ tr' s' a, M.Takes as tr' s' a → ok s' a := by
  induction as using List.reverseRecOn generalizing s tr with
  | nil =>
    exact ⟨h, fun tr' s' a htakes => absurd htakes not_takes_nil⟩
  | append_singleton as b ih =>
    obtain ⟨s', tr', es, hr, hs, rfl⟩ := replay_snoc.mp h
    obtain ⟨hok, hs⟩ := Option.ite_none_right_eq_some.mp hs
    obtain ⟨hr, hbefore⟩ := ih hr
    refine ⟨replay_snoc.mpr ⟨s', tr', es, hr, hs, rfl⟩, fun tr₁ s₁ a htakes => ?_⟩
    rcases takes_snoc.mp htakes with htakes | ⟨rfl, hr₁⟩
    · exact hbefore tr₁ s₁ a htakes
    · cases hr.symm.trans hr₁
      exact hok

/-- `M` with a bystander's account of what was done and shown. -/
def watch (M : Machine σ α ε) (t : τ) (next : τ → α → List ε → τ) : Machine (σ × τ) α ε where
  init := (M.init, t)
  step s a := (M.step s.1 a).map fun r => ((r.1, next s.2 a r.2), r.2)

theorem step_of_watch {M : Machine σ α ε} {next : τ → α → List ε → τ}
    (hs : (M.watch t₀ next).step (s, t) a = some ((s', t'), es)) :
    M.step s a = some (s', es) ∧ t' = next t a es := by
  obtain ⟨⟨s₁, es₁⟩, hstep, heq⟩ := Option.map_eq_some_iff.mp hs
  cases heq
  exact ⟨hstep, rfl⟩

/-- `M` with its events told by `tell`, from the states before and after. -/
def relabel (M : Machine σ α ε) (tell : σ → α → σ → List η) : Machine σ α η where
  init := M.init
  step s a := (M.step s a).map fun r => (r.1, tell s a r.1)

theorem step_of_relabel {M : Machine σ α ε} {tell : σ → α → σ → List η}
    (hs : (M.relabel tell).step s a = some (s', es)) : (∃ es', M.step s a = some (s', es')) ∧ es = tell s a s' := by
  obtain ⟨⟨s₁, es₁⟩, hstep, heq⟩ := Option.map_eq_some_iff.mp hs
  cases heq
  exact ⟨⟨es₁, hstep⟩, rfl⟩

/-- When `M` follows every step of `A` with the same events, it follows every
replay of `A`; in particular no action of it is refused. -/
theorem replay_follows {M : Machine σ α ε} {A : Machine τ α ε} {R : σ → τ → Prop}
    (hstep : ∀ s t a t' es, R s t → A.step t a = some (t', es) →
      ∃ s', M.step s a = some (s', es) ∧ R s' t')
    (hR : R s t) (h : A.replay t as = some (t', tr)) :
    ∃ s', M.replay s as = some (s', tr) ∧ R s' t' := by
  induction as generalizing s t tr with
  | nil =>
    simp only [replay, Option.some.injEq, Prod.mk.injEq] at h
    obtain ⟨rfl, rfl⟩ := h
    exact ⟨s, rfl, hR⟩
  | cons a as ih =>
    simp only [replay, Option.bind_eq_bind, Option.bind_eq_some_iff, Option.pure_def,
      Option.some.injEq, Prod.mk.injEq] at h
    obtain ⟨⟨t₁, es⟩, hs, ⟨t₂, tr'⟩, hr, rfl, rfl⟩ := h
    obtain ⟨s₁, hs₁, hR₁⟩ := hstep _ _ _ _ _ hR hs
    obtain ⟨s₂, hs₂, hR₂⟩ := ih hR₁ hr
    exact ⟨s₂, by simp [replay, hs₁, hs₂], hR₂⟩

end Machine

-- ---------------------------------------------------------------------------
-- Refinement
-- ---------------------------------------------------------------------------

/-- `M` refines `A` on the runs whose steps meet `ok`: under the invariant
`inv`, one step of `M` is a finite number of steps of `A` between the
abstracted states that show the same events up to `obs`. -/
structure Refinement (M : Machine σ α ε) (A : Machine τ β η) (ok : σ → α → Prop) where
  obs : ε → List η
  abs : σ → τ
  inv : σ → Prop
  init_inv : inv M.init
  init_abs : abs M.init = A.init
  step_inv : ∀ {s a s' es}, inv s → ok s a → M.step s a = some (s', es) → inv s'
  step_abs : ∀ {s a s' es}, inv s → ok s a → M.step s a = some (s', es) →
    A.Steps Machine.anyStep (abs s) (es.flatMap obs) (abs s')

namespace Refinement

variable {M : Machine σ α ε} {A : Machine τ β η} {ok : σ → α → Prop}

theorem run_inv (R : Refinement M A ok) (h : M.RunIf ok tr s) : R.inv s :=
  h.state_invariant R.init_inv fun _ _ _ _ hi hok hs => R.step_inv hi hok hs

theorem run (R : Refinement M A ok) (h : M.RunIf ok tr s) : A.Run (tr.flatMap R.obs) (R.abs s) := by
  induction h with
  | refl => rw [R.init_abs]; exact .refl
  | step hr hok hs ih =>
    rw [List.flatMap_append]
    exact ih.trans (R.step_abs (R.run_inv hr) hok hs)

end Refinement

end Machines
