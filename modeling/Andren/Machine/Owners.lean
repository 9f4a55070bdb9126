import Andren.Machine.Handles

/-!
# Variables that own

A class may own a resource by a handle and nothing else: the destructor releases what the handle
stands for, moving passes the handle on and leaves none. What its members do is one of a few
operations on all variables of the class (`OwnerOp`), of which only one forgets a resource:
writing a new handle over an old one.

In every run no resource is released twice, and each is released, held once or forgotten
(`owners_accounted`); none is forgotten if and only if no handle is written over
(`owners_forget_iff`).
-/

namespace Machines

/-- A handle with the resource behind it. -/
abbrev Owned (ν : Type u) := Option (ν × Nat)

structure Owners (ν : Type u) where
  table : HandleTable ν
  vars : List (Owned ν)
  /-- The handles that callers took over. -/
  taken : List (ν × Nat)
  forgotten : List (ν × Nat)

inductive OwnerOp (ν : Type u)
  /-- A variable for a new resource, or for none. -/
  | made (n : Option ν)
  /-- A variable for a handle that a caller took over. -/
  | adopted (k : Nat)
  | moved (j : Nat)
  | assigned (i j : Nat)
  /-- The handle is written without a look at the old one. -/
  | overwritten (i : Nat) (n : Option ν)
  | replaced (i : Nat) (n : Option ν)
  | reset (i : Nat)
  | took (i : Nat)
  /-- A caller releases what it took over. -/
  | freed (k : Nat)
  | destroyed (i : Nat)

namespace Owners

variable {ν : Type u} [DecidableEq ν]

def empty : Owners ν := ⟨.empty, [], [], []⟩

def acquire (s : Owners ν) : Option ν → Option (Owners ν × Owned ν)
  | none => some (s, none)
  | some n => (s.table.give n).map fun (table, k) => ({ s with table }, some (n, k))

def release (s : Owners ν) : Owned ν → Owners ν × List Nat
  | none => (s, [])
  | some (n, k) => ({ s with table := s.table.release n }, [k])

def step (s : Owners ν) : OwnerOp ν → Option (Owners ν × List Nat)
  | .made n => do
    let (s, x) ← s.acquire n
    pure ({ s with vars := s.vars ++ [x] }, [])
  | .adopted k => do
    let p ← s.taken[k]?
    pure ({ s with vars := s.vars ++ [some p], taken := s.taken.eraseIdx k }, [])
  | .moved j => do
    let x ← s.vars[j]?
    pure ({ s with vars := s.vars.set j none ++ [x] }, [])
  | .assigned i j => do
    let old ← s.vars[i]?
    let x ← s.vars[j]?
    let (s, ks) := s.release old
    pure ({ s with vars := (s.vars.set i x).set j none }, ks)
  | .overwritten i n => do
    let old ← s.vars[i]?
    let (s, x) ← s.acquire n
    pure ({ s with vars := s.vars.set i x, forgotten := s.forgotten ++ old.toList }, [])
  | .replaced i n => do
    let old ← s.vars[i]?
    let (s, x) ← s.acquire n
    let (s, ks) := s.release old
    pure ({ s with vars := s.vars.set i x }, ks)
  | .reset i => do
    let old ← s.vars[i]?
    let (s, ks) := s.release old
    pure ({ s with vars := s.vars.set i none }, ks)
  | .took i => do
    let x ← s.vars[i]?
    pure ({ s with vars := s.vars.set i none, taken := s.taken ++ x.toList }, [])
  | .freed k => do
    let p ← s.taken[k]?
    let (s, ks) := s.release (some p)
    pure ({ s with taken := s.taken.eraseIdx k }, ks)
  | .destroyed i => do
    let old ← s.vars[i]?
    let (s, ks) := s.release old
    pure ({ s with vars := s.vars.eraseIdx i }, ks)

def held (s : Owners ν) : List (ν × Nat) := s.taken ++ s.vars.flatMap Option.toList

/-- The operation writes over a handle that stands for something. -/
def Overwrites (s : Owners ν) : OwnerOp ν → Prop
  | .overwritten i _ => ∃ p, s.vars[i]? = some (some p)
  | _ => False

end Owners

/-- Objects of a class whose members do `op`. -/
def owners {ν : Type u} [DecidableEq ν] (op : α → OwnerOp ν) : Machine (Owners ν) α Nat where
  init := .empty
  step s a := s.step (op a)

-- ---------------------------------------------------------------------------
-- The account
-- ---------------------------------------------------------------------------

section

variable {ν : Type u} [DecidableEq ν] {s s' : Owners ν}

/-- The step keeps the account; what is forgotten stays in it. -/
def Accounts (s s' : Owners ν) (ks : List Nat) : Prop :=
  ∀ gone, Ledger s.table gone (s.forgotten ++ s.held) → Ledger s'.table (gone ++ ks) (s'.forgotten ++ s'.held)

theorem acquire_same (hs : s.acquire n = some (s', x)) :
    s'.vars = s.vars ∧ s'.taken = s.taken ∧ s'.forgotten = s.forgotten := by
  cases n with
  | none =>
    cases hs
    exact ⟨rfl, rfl, rfl⟩
  | some n =>
    obtain ⟨_, _, heq⟩ := Option.map_eq_some_iff.mp hs
    cases heq
    exact ⟨rfl, rfl, rfl⟩

theorem acquire_ledger (hs : s.acquire n = some (s', x)) (h : Ledger s.table gone held) :
    Ledger s'.table gone (x.toList ++ held) := by
  cases n with
  | none =>
    cases hs
    exact h
  | some n =>
    obtain ⟨⟨table, k⟩, hgive, heq⟩ := Option.map_eq_some_iff.mp hs
    cases heq
    exact h.give hgive

theorem release_ledger (x : Owned ν) (h : Ledger s.table gone (x.toList ++ held)) :
    Ledger (s.release x).1.table (gone ++ (s.release x).2) held := by
  cases x with
  | none => simpa [Owners.release] using h
  | some p => exact h.release

theorem release_same (s : Owners ν) (x : Owned ν) : (s.release x).1.vars = s.vars ∧
    (s.release x).1.taken = s.taken ∧ (s.release x).1.forgotten = s.forgotten := by
  cases x <;> exact ⟨rfl, rfl, rfl⟩

theorem perm_of_counts {xs ys : List (ν × Nat)} (h : ∀ p, xs.count p = ys.count p) : xs.Perm ys :=
  List.perm_iff_count.mpr h

theorem owners_step (hs : s.step op = some (s', ks)) : Accounts s s' ks := by
  intro gone h
  unfold Owners.held at *
  cases op with
  | made n =>
    simp only [Owners.step, Option.bind_eq_bind, Option.bind_eq_some_iff] at hs
    obtain ⟨⟨s₁, x⟩, hacq, hs⟩ := hs
    cases hs
    obtain ⟨hvars, htaken, hforgotten⟩ := acquire_same hacq
    rw [List.append_nil]
    refine (acquire_ledger hacq h).perm (perm_of_counts fun p => ?_)
    simp only [hvars, htaken, hforgotten, List.flatMap_append, List.flatMap_singleton, List.count_append]
    omega
  | adopted k =>
    simp only [Owners.step, Option.bind_eq_bind, Option.bind_eq_some_iff] at hs
    obtain ⟨q, hq, hs⟩ := hs
    cases hs
    rw [List.append_nil]
    refine h.perm (perm_of_counts fun p => ?_)
    have herase := (perm_eraseIdx hq).count_eq p
    simp only [List.flatMap_append, List.flatMap_singleton, Option.toList_some, List.count_append, List.count_cons,
      List.count_nil] at herase ⊢
    omega
  | moved j =>
    simp only [Owners.step, Option.bind_eq_bind, Option.bind_eq_some_iff] at hs
    obtain ⟨x, hx, hs⟩ := hs
    cases hs
    rw [List.append_nil]
    refine h.perm (perm_of_counts fun p => ?_)
    have htake := (flatMap_take (z := none) Option.toList hx rfl).count_eq p
    simp only [List.flatMap_append, List.flatMap_singleton, List.count_append] at htake ⊢
    omega
  | assigned i j =>
    simp only [Owners.step, Option.bind_eq_bind, Option.bind_eq_some_iff] at hs
    obtain ⟨old, hold, x, hx, hs⟩ := hs
    cases hs
    obtain ⟨hvars, htaken, hforgotten⟩ := release_same s old
    refine release_ledger old (h.perm (perm_of_counts fun p => ?_))
    have hmove := (flatMap_move (z := none) Option.toList hold hx rfl).count_eq p
    simp only [hvars, htaken, hforgotten, List.count_append] at hmove ⊢
    omega
  | overwritten i n =>
    simp only [Owners.step, Option.bind_eq_bind, Option.bind_eq_some_iff] at hs
    obtain ⟨old, hold, ⟨s₁, x⟩, hacq, hs⟩ := hs
    cases hs
    obtain ⟨hvars, htaken, hforgotten⟩ := acquire_same hacq
    rw [List.append_nil]
    refine (acquire_ledger hacq h).perm (perm_of_counts fun p => ?_)
    have hset := (flatMap_set Option.toList hold x).count_eq p
    have herase := (flatMap_eraseIdx Option.toList hold).count_eq p
    simp only [hvars, htaken, hforgotten, List.count_append] at hset herase ⊢
    omega
  | replaced i n =>
    simp only [Owners.step, Option.bind_eq_bind, Option.bind_eq_some_iff] at hs
    obtain ⟨old, hold, ⟨s₁, x⟩, hacq, hs⟩ := hs
    cases hs
    obtain ⟨hvars, htaken, hforgotten⟩ := acquire_same hacq
    obtain ⟨hvars', htaken', hforgotten'⟩ := release_same s₁ old
    refine release_ledger old ((acquire_ledger hacq h).perm (perm_of_counts fun p => ?_))
    have hset := (flatMap_set Option.toList hold x).count_eq p
    have herase := (flatMap_eraseIdx Option.toList hold).count_eq p
    simp only [htaken, hforgotten, hvars', htaken', hforgotten', hvars, List.count_append] at hset herase ⊢
    omega
  | reset i =>
    simp only [Owners.step, Option.bind_eq_bind, Option.bind_eq_some_iff] at hs
    obtain ⟨old, hold, hs⟩ := hs
    cases hs
    obtain ⟨hvars, htaken, hforgotten⟩ := release_same s old
    refine release_ledger old (h.perm (perm_of_counts fun p => ?_))
    have htake := (flatMap_take (z := none) Option.toList hold rfl).count_eq p
    simp only [hvars, htaken, hforgotten, List.count_append] at htake ⊢
    omega
  | took i =>
    simp only [Owners.step, Option.bind_eq_bind, Option.bind_eq_some_iff] at hs
    obtain ⟨x, hx, hs⟩ := hs
    cases hs
    rw [List.append_nil]
    refine h.perm (perm_of_counts fun p => ?_)
    have htake := (flatMap_take (z := none) Option.toList hx rfl).count_eq p
    simp only [List.count_append] at htake ⊢
    omega
  | freed k =>
    simp only [Owners.step, Option.bind_eq_bind, Option.bind_eq_some_iff] at hs
    obtain ⟨q, hq, hs⟩ := hs
    cases hs
    obtain ⟨hvars, htaken, hforgotten⟩ := release_same s (some q)
    refine release_ledger (some q) (h.perm (perm_of_counts fun p => ?_))
    have herase := (perm_eraseIdx hq).count_eq p
    simp only [hvars, htaken, hforgotten, Option.toList_some, List.count_append, List.count_cons,
      List.count_nil] at herase ⊢
    omega
  | destroyed i =>
    simp only [Owners.step, Option.bind_eq_bind, Option.bind_eq_some_iff] at hs
    obtain ⟨old, hold, hs⟩ := hs
    cases hs
    obtain ⟨hvars, htaken, hforgotten⟩ := release_same s old
    refine release_ledger old (h.perm (perm_of_counts fun p => ?_))
    have herase := (flatMap_eraseIdx Option.toList hold).count_eq p
    simp only [hvars, htaken, hforgotten, List.count_append] at herase ⊢
    omega

theorem owners_forgets (hs : s.step op = some (s', ks)) :
    ∃ ps, s'.forgotten = s.forgotten ++ ps ∧ (ps = [] ↔ ¬s.Overwrites op) := by
  have hkeeps (hsame : s'.forgotten = s.forgotten) (hover : ¬s.Overwrites op) :
      ∃ ps, s'.forgotten = s.forgotten ++ ps ∧ (ps = [] ↔ ¬s.Overwrites op) :=
    ⟨[], by rw [hsame, List.append_nil], iff_of_true rfl hover⟩
  cases op with
  | overwritten i n =>
    simp only [Owners.step, Option.bind_eq_bind, Option.bind_eq_some_iff] at hs
    obtain ⟨old, hold, ⟨s₁, x⟩, hacq, hs⟩ := hs
    cases hs
    refine ⟨old.toList, by rw [← (acquire_same hacq).2.2], ?_⟩
    cases old with
    | none => simp [Owners.Overwrites, hold]
    | some p => simp [Owners.Overwrites, hold]
  | made n =>
    simp only [Owners.step, Option.bind_eq_bind, Option.bind_eq_some_iff] at hs
    obtain ⟨⟨s₁, x⟩, hacq, hs⟩ := hs
    cases hs
    exact hkeeps (acquire_same hacq).2.2 id
  | replaced i n =>
    simp only [Owners.step, Option.bind_eq_bind, Option.bind_eq_some_iff] at hs
    obtain ⟨old, -, ⟨s₁, x⟩, hacq, hs⟩ := hs
    cases hs
    exact hkeeps ((release_same s₁ old).2.2.trans (acquire_same hacq).2.2) id
  | assigned i j =>
    simp only [Owners.step, Option.bind_eq_bind, Option.bind_eq_some_iff] at hs
    obtain ⟨old, -, x, -, hs⟩ := hs
    cases hs
    exact hkeeps (release_same s old).2.2 id
  | adopted _ | moved _ | took _ =>
    simp only [Owners.step, Option.bind_eq_bind, Option.bind_eq_some_iff] at hs
    obtain ⟨x, -, hs⟩ := hs
    cases hs
    exact hkeeps rfl id
  | reset _ | destroyed _ | freed _ =>
    simp only [Owners.step, Option.bind_eq_bind, Option.bind_eq_some_iff] at hs
    obtain ⟨x, -, hs⟩ := hs
    cases hs
    exact hkeeps (release_same s _).2.2 id

theorem untaken_step (hs : s.step op = some (s', ks)) (hnone : s.taken = []) (htook : ∀ i, op ≠ .took i) :
    s'.taken = [] := by
  cases op with
  | took i => exact absurd rfl (htook i)
  | made n =>
    simp only [Owners.step, Option.bind_eq_bind, Option.bind_eq_some_iff] at hs
    obtain ⟨⟨s₁, x⟩, hacq, hs⟩ := hs
    cases hs
    exact (acquire_same hacq).2.1.trans hnone
  | overwritten i n =>
    simp only [Owners.step, Option.bind_eq_bind, Option.bind_eq_some_iff] at hs
    obtain ⟨old, -, ⟨s₁, x⟩, hacq, hs⟩ := hs
    cases hs
    exact (acquire_same hacq).2.1.trans hnone
  | replaced i n =>
    simp only [Owners.step, Option.bind_eq_bind, Option.bind_eq_some_iff] at hs
    obtain ⟨old, -, ⟨s₁, x⟩, hacq, hs⟩ := hs
    cases hs
    exact (release_same s₁ old).2.1.trans ((acquire_same hacq).2.1.trans hnone)
  | assigned i j =>
    simp only [Owners.step, Option.bind_eq_bind, Option.bind_eq_some_iff] at hs
    obtain ⟨old, -, x, -, hs⟩ := hs
    cases hs
    exact (release_same s old).2.1.trans hnone
  | moved j =>
    simp only [Owners.step, Option.bind_eq_bind, Option.bind_eq_some_iff] at hs
    obtain ⟨x, -, hs⟩ := hs
    cases hs
    exact hnone
  | adopted k | freed k =>
    simp only [Owners.step, Option.bind_eq_bind, Option.bind_eq_some_iff, hnone] at hs
    obtain ⟨q, hq, -⟩ := hs
    cases hq
  | reset i | destroyed i =>
    simp only [Owners.step, Option.bind_eq_bind, Option.bind_eq_some_iff] at hs
    obtain ⟨x, -, hs⟩ := hs
    cases hs
    exact (release_same s _).2.1.trans hnone

-- ---------------------------------------------------------------------------
-- Whole runs
-- ---------------------------------------------------------------------------

variable {op : α → OwnerOp ν}

/-- Each resource was released once, is held once or is forgotten. -/
def Accounted (tr : List Nat) (s : Owners ν) : Prop :=
  ∀ k, tr.count k + (s.held.map Prod.snd).count k + (s.forgotten.map Prod.snd).count k =
    if k < s.table.made then 1 else 0

theorem owners_ledger (h : (owners op).Run tr s) : Ledger s.table tr (s.forgotten ++ s.held) := by
  refine h.invariant (I := fun tr s => Ledger s.table tr (s.forgotten ++ s.held)) ledger_empty ?_
  intro tr s a s' ks _ ih _ hs
  exact owners_step hs tr ih

theorem owners_accounted (h : (owners op).Run tr s) : Accounted tr s := by
  intro k
  have hcount := (owners_ledger h).count k
  rw [List.map_append, List.count_append] at hcount
  omega

/-- Nothing is forgotten if and only if no handle that stands for something was written over. -/
theorem owners_forget_iff (hr : (owners op).replay (owners op).init as = some (s, tr)) :
    s.forgotten = [] ↔ ∀ tr' s' a, (owners op).Takes as tr' s' a → ¬s'.Overwrites (op a) := by
  induction as using List.reverseRecOn generalizing s tr with
  | nil =>
    cases hr
    exact iff_of_true rfl fun _ _ _ htakes => (Machine.not_takes_nil htakes).elim
  | append_singleton as a ih =>
    obtain ⟨s₁, tr₁, es, hr₁, hs, rfl⟩ := Machine.replay_snoc.mp hr
    obtain ⟨ps, hforgotten, hps⟩ := owners_forgets hs
    rw [hforgotten, List.append_eq_nil_iff, ih hr₁, hps]
    constructor
    · rintro ⟨hbefore, hlast⟩ tr' s' b htakes
      rcases Machine.takes_snoc.mp htakes with htakes | ⟨rfl, hr'⟩
      · exact hbefore tr' s' b htakes
      · cases hr₁.symm.trans hr'
        exact hlast
    · intro hall
      exact ⟨fun tr' s' b htakes => hall tr' s' b (Machine.takes_snoc.mpr (.inl htakes)),
        hall tr₁ s₁ a (Machine.takes_snoc.mpr (.inr ⟨rfl, hr₁⟩))⟩

omit [DecidableEq ν] in
/-- When no variable is left, and callers have released what they took over, each resource was released
once if and only if none was forgotten. -/
theorem Accounted.released_iff (h : Accounted tr s) (hvars : s.vars = []) (htaken : s.taken = []) :
    (∀ k < s.table.made, tr.count k = 1) ↔ s.forgotten = [] := by
  have hheld : s.held = [] := by simp [Owners.held, hvars, htaken]
  have hcount (k : Nat) := h k
  simp only [hheld, List.map_nil, List.count_nil, Nat.add_zero] at hcount
  constructor
  · intro hall
    by_contra hne
    obtain ⟨p, hp⟩ := List.exists_mem_of_ne_nil _ hne
    have hpos := List.count_pos_iff.mpr (List.mem_map_of_mem (f := Prod.snd) hp)
    have hk := hcount p.2
    split at hk
    · rename_i hlt
      have hone := hall _ hlt
      omega
    · omega
  · intro hnil k hk
    simpa [hnil, hk] using hcount k

omit [DecidableEq ν] in
theorem Accounted.count_le (h : Accounted tr s) (k : Nat) : tr.count k ≤ 1 := by
  have hk := h k
  split at hk <;> omega

def Linear (op : α → OwnerOp ν) : Prop :=
  ∀ tr s, (owners op).Run tr s → Accounted tr s ∧ s.forgotten = [] ∧
    (s.vars = [] → s.taken = [] → ∀ k < s.table.made, tr.count k = 1)

theorem linear_of_no_overwrite (h : ∀ a i n, op a ≠ .overwritten i n) : Linear op := by
  intro tr s hrun
  have haccount := owners_accounted hrun
  have hforgotten : s.forgotten = [] := by
    refine hrun.state_invariant (I := fun s => s.forgotten = []) rfl ?_
    intro s a s' ks hnone _ hs
    obtain ⟨ps, hforgotten, hps⟩ := owners_forgets hs
    have hover : ¬s.Overwrites (op a) := by
      intro hover
      cases hop : op a with
      | overwritten i n => exact h a i n hop
      | _ => simp [hop, Owners.Overwrites] at hover
    rw [hforgotten, hnone, hps.mpr hover, List.append_nil]
  exact ⟨haccount, hforgotten, fun hvars htaken => (haccount.released_iff hvars htaken).mpr hforgotten⟩

end

end Machines
