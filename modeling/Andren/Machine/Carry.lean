import Andren.Machine.Trace
import Mathlib.Data.List.Forall2

/-!
# Loops that put out values

A loop goes over a list with a state that it carries from element to element. It puts out a
value for each of them, until a pass fails. When each pass does what it should by the
elements before it, so does the loop (`Carries.run`), and a loop of such loops (`Carries.nest`).
-/

namespace Machines

/-- What `f` puts out for the elements in turn, and the state in the end if no pass fails. -/
def carry (f : σ → α → Option (β × σ)) (s : σ) : List α → List β × Option σ
  | [] => ([], some s)
  | a :: as =>
    match f s a with
    | none => ([], none)
    | some (b, s) =>
      let (bs, last) := carry f s as
      (b :: bs, last)

def carryAll (f : σ → α → Option (β × σ)) (s : σ) (as : List α) : Option (List β × σ) :=
  let (bs, last) := carry f s as
  last.map (bs, ·)

section

variable {f : σ → α → Option (β × σ)}

@[simp] theorem carry_nil (s : σ) : carry f s [] = ([], some s) := rfl

theorem carry_cons_none (h : f s a = none) (as : List α) : carry f s (a :: as) = ([], none) := by
  simp [carry, h]

theorem carry_cons_some (h : f s a = some (b, s')) (as : List α) :
    carry f s (a :: as) = (b :: (carry f s' as).1, (carry f s' as).2) := by
  simp [carry, h]

theorem carryAll_eq_some : carryAll f s as = some (bs, last) ↔ carry f s as = (bs, some last) := by
  unfold carryAll
  split
  next heq => rw [heq, Prod.mk.injEq, Option.map_eq_some_iff]; simp [and_comm]

/-- A value is put out by a pass over the element at its place. -/
theorem carry_getElem? {as : List α} {i : Nat} (ha : as[i]? = some a) (hb : (carry f s as).1[i]? = some b) :
    ∃ s s', f s a = some (b, s') := by
  induction as generalizing s i with
  | nil => cases ha
  | cons x as ih =>
    cases hf : f s x with
    | none =>
      rw [carry_cons_none hf] at hb
      cases hb
    | some p =>
      rw [carry_cons_some hf] at hb
      cases i with
      | zero =>
        cases ha
        cases hb
        exact ⟨s, p.2, hf⟩
      | succ i => exact ih ha hb

end

/-- By what is before an element `a` with `P a`, summed up in the state by `I`: its pass puts
out a value with `R` if and only if `Q`. -/
structure Carries (P : α → Prop) (I : List α → σ → Prop) (R : α → β → Prop) (Q : List α → α → Prop)
    (f : σ → α → Option (β × σ)) : Prop where
  iff : ∀ {before s a}, P a → I before s → ((∃ b s', f s a = some (b, s') ∧ R a b) ↔ Q before a)
  next : ∀ {before s a b s'}, P a → I before s → f s a = some (b, s') → I (before ++ [a]) s'

namespace Carries

variable {P : α → Prop} {I : List α → σ → Prop} {R : α → β → Prop} {Q : List α → α → Prop}
  {f : σ → α → Option (β × σ)}

theorem last (h : Carries P I R Q f) (hP : ∀ a ∈ as, P a) (hI : I before s)
    (hlast : (carry f s as).2 = some s') : I (before ++ as) s' := by
  induction as generalizing before s with
  | nil =>
    cases hlast
    rwa [List.append_nil]
  | cons a as ih =>
    cases hf : f s a with
    | none =>
      rw [carry_cons_none hf] at hlast
      cases hlast
    | some p =>
      rw [carry_cons_some hf] at hlast
      rw [List.append_cons]
      exact ih (fun x hx => hP x (.tail _ hx)) (h.next (hP a (.head _)) hI hf) hlast

/-- The loop comes to its end with the right values if and only if each element has `Q`. -/
theorem run (h : Carries P I R Q f) (hP : ∀ a ∈ as, P a) (hI : I before s) :
    (carry f s as).2.isSome ∧ List.Forall₂ R as (carry f s as).1 ↔ AlwaysFrom Q before as := by
  induction as generalizing before s with
  | nil => simp [AlwaysFrom]
  | cons a as ih =>
    have hiff := h.iff (hP a (.head _)) hI
    rw [AlwaysFrom, ← hiff]
    cases hf : f s a with
    | none => simp [carry_cons_none hf]
    | some p =>
      have hrest := ih (fun x hx => hP x (.tail _ hx)) (h.next (hP a (.head _)) hI hf)
      simp only [carry_cons_some hf, List.forall₂_cons, ← hrest, Option.some.injEq]
      constructor
      · rintro ⟨hsome, hR, hRs⟩
        exact ⟨⟨p.1, p.2, rfl, hR⟩, hsome, hRs⟩
      · rintro ⟨⟨b, s', rfl, hR⟩, hsome, hRs⟩
        exact ⟨hsome, hR, hRs⟩

/-- A loop whose passes are loops: the elements are those of the inner one, in turn. -/
theorem nest (h : Carries P I R Q f) :
    Carries (∀ a ∈ ·, P a) (fun before s => I before.flatten s) (List.Forall₂ R)
      (fun before as => AlwaysFrom Q before.flatten as) (carryAll f) where
  iff {before s as} hP hI := by
    rw [← h.run hP hI]
    constructor
    · rintro ⟨bs, last, hpass, hR⟩
      rw [carryAll_eq_some.mp hpass]
      exact ⟨rfl, hR⟩
    · rintro ⟨hsome, hR⟩
      obtain ⟨last, hlast⟩ := Option.isSome_iff_exists.mp hsome
      exact ⟨_, last, carryAll_eq_some.mpr (Prod.ext rfl hlast), hR⟩
  next {before s as bs last} hP hI hpass := by
    have hlast := congrArg Prod.snd (carryAll_eq_some.mp hpass)
    simpa using h.last hP hI hlast

end Carries

theorem alwaysFrom_flatten {q : List ε → ε → Prop} {before : List (List ε)} :
    AlwaysFrom (fun before es => AlwaysFrom q before.flatten es) before rows ↔
      AlwaysFrom q before.flatten rows.flatten := by
  induction rows generalizing before with
  | nil => simp [AlwaysFrom]
  | cons es rows ih => simp [AlwaysFrom, ih, alwaysFrom_append]

end Machines
