import Andren.Machine.Basic
import Mathlib.Data.Option.Basic

/-!
# Loops

A loop runs its body until the body leaves with a result. Its executable form
runs on fuel and is `none` when that is not enough. Computations on fuel that
keep their result when they get more (`Steady`) can be put together, and each has
at most one result. A loop whose body lowers a well-founded variant under an
invariant leaves (`loop_returns`); one whose body always goes on under an invariant
does not (`loop_diverges`). A machine that takes a pass in one step reaches what the loop
computes (`steps_of_loop`).
-/

namespace Machines

/-- More fuel changes no result. -/
def Steady (f : Nat → Option ρ) : Prop := ∀ fuel fuel' r, fuel ≤ fuel' → f fuel = some r → f fuel' = some r

/-- With enough fuel the result is `r`. -/
def Returns (f : Nat → Option ρ) (r : ρ) : Prop := ∃ fuel, f fuel = some r

theorem steady_const (r : Option ρ) : Steady fun _ => r := fun _ _ _ _ h => h

theorem Steady.bind {f : Nat → Option ρ} {g : ρ → Nat → Option τ} (hf : Steady f) (hg : ∀ r, Steady (g r)) :
    Steady fun fuel => (f fuel).bind (g · fuel) := by
  intro fuel fuel' t hle h
  obtain ⟨r, hr, ht⟩ := Option.bind_eq_some_iff.mp h
  exact Option.bind_eq_some_iff.mpr ⟨r, hf _ _ _ hle hr, hg r _ _ _ hle ht⟩

theorem returns_const (r : ρ) : Returns (fun _ => some r) r := ⟨0, rfl⟩

theorem Returns.bind {f : Nat → Option ρ} {g : ρ → Nat → Option τ} (hf : Steady f) (hg : Steady (g r))
    (hr : Returns f r) (ht : Returns (g r) t) : Returns (fun fuel => (f fuel).bind (g · fuel)) t := by
  obtain ⟨fuel, hr⟩ := hr
  obtain ⟨fuel', ht⟩ := ht
  exact ⟨max fuel fuel', Option.bind_eq_some_iff.mpr
    ⟨r, hf _ _ _ (Nat.le_max_left ..) hr, hg _ _ _ (Nat.le_max_right ..) ht⟩⟩

theorem Returns.unique {f : Nat → Option ρ} (hf : Steady f) (hr : Returns f r) (hr' : Returns f r') :
    r = r' := by
  obtain ⟨fuel, hr⟩ := hr
  obtain ⟨fuel', hr'⟩ := hr'
  have hmax := hf _ (max fuel fuel') _ (Nat.le_max_left ..) hr
  rw [hf _ _ _ (Nat.le_max_right ..) hr'] at hmax
  exact (Option.some.inj hmax).symm

/-- `body` goes on from another state or leaves with a result. -/
def loop (body : σ → σ ⊕ ρ) : Nat → σ → Option ρ
  | 0, _ => none
  | fuel + 1, s => match body s with
    | .inl s' => loop body fuel s'
    | .inr r => some r

theorem loop_steady (body : σ → σ ⊕ ρ) (s : σ) : Steady (loop body · s) := by
  intro fuel fuel' r hle h
  induction fuel generalizing s fuel' with
  | zero => cases h
  | succ fuel ih =>
    obtain ⟨fuel', rfl⟩ := Nat.exists_eq_add_of_lt hle
    simp only [loop] at h ⊢
    split at h
    · exact ih _ _ (by omega) h
    · exact h

/-- Under the invariant `I` each pass leaves with a result that `Q` holds of, or goes
on with the variant `μ` lowered along `r`. -/
theorem loop_returns (body : σ → σ ⊕ ρ) {I : σ → Prop} {Q : ρ → Prop} {r : β → β → Prop} (hwf : WellFounded r)
    (μ : σ → β) (hpass : ∀ s, I s →
      (∃ s', body s = .inl s' ∧ I s' ∧ r (μ s') (μ s)) ∨ ∃ x, body s = .inr x ∧ Q x)
    (hs : I s) : ∃ x, Returns (loop body · s) x ∧ Q x := by
  induction hμ : μ s using hwf.induction generalizing s with
  | _ b ih =>
    subst hμ
    rcases hpass s hs with ⟨s', hbody, hs', hlt⟩ | ⟨x, hbody, hQ⟩
    · obtain ⟨x, ⟨fuel, hx⟩, hQ⟩ := ih _ hlt hs' rfl
      refine ⟨x, ⟨fuel + 1, ?_⟩, hQ⟩
      simpa only [loop, hbody] using hx
    · refine ⟨x, ⟨1, ?_⟩, hQ⟩
      simp only [loop, hbody]

/-- What the passes keep, and give when one leaves, holds of every result. -/
theorem loop_invariant (body : σ → σ ⊕ ρ) {I : σ → Prop} {Q : ρ → Prop}
    (hgo : ∀ s s', I s → body s = .inl s' → I s') (hleave : ∀ s x, I s → body s = .inr x → Q x) (hs : I s)
    (h : Returns (loop body · s) x) : Q x := by
  obtain ⟨fuel, h⟩ := h
  induction fuel generalizing s with
  | zero => cases h
  | succ fuel ih =>
    simp only [loop] at h
    split at h
    next s' hbody => exact ih (hgo s s' hs hbody) h
    next x' hbody => exact Option.some.inj h ▸ hleave s x' hs hbody

theorem loop_diverges (body : σ → σ ⊕ ρ) {I : σ → Prop} (hpass : ∀ s, I s → ∃ s', body s = .inl s' ∧ I s')
    (hs : I s) (x : ρ) : ¬Returns (loop body · s) x := by
  refine loop_invariant body (I := I) (Q := fun _ => False) ?_ ?_ hs
  · intro s s' hs hbody
    obtain ⟨s₁, hbody', hs₁⟩ := hpass s hs
    exact Sum.inl.inj (hbody'.symm.trans hbody) ▸ hs₁
  · intro s x hs hbody
    obtain ⟨s₁, hbody', -⟩ := hpass s hs
    exact nomatch hbody'.symm.trans hbody

theorem steps_of_loop {M : Machine τ α ε} (body : σ → σ ⊕ ρ) {f : σ → τ} {g : ρ → τ} {a : α}
    (hgo : ∀ s s', body s = .inl s' → ∃ es, M.step (f s) a = some (f s', es))
    (hleave : ∀ s r, body s = .inr r → ∃ es, M.step (f s) a = some (g r, es))
    (h : loop body fuel s = some r) : ∃ tr, M.Steps Machine.anyStep (f s) tr (g r) := by
  induction fuel generalizing s with
  | zero => cases h
  | succ fuel ih =>
    simp only [loop] at h
    split at h
    next s' hbody =>
      obtain ⟨es, hs⟩ := hgo s s' hbody
      obtain ⟨tr, hrest⟩ := ih h
      exact ⟨es ++ tr, (Machine.Steps.one trivial hs).trans hrest⟩
    next r' hbody =>
      obtain ⟨es, hs⟩ := hleave s r' hbody
      exact ⟨es, Option.some.inj h ▸ .one trivial hs⟩

end Machines
