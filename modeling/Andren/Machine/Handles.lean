import Andren.Machine.Basic
import Mathlib.Data.List.Count
import Mathlib.Data.List.Nodup
import Mathlib.Data.List.Perm.Basic
import Mathlib.Logic.Function.Basic

/-!
# Numbers for resources

A kernel gives out numbers (descriptors, addresses), and gives a number out
again once its resource is released. Each time it is given out it stands for
another resource, which is counted here, so that a number that outlives its
resource can be told from one that does not.

`Ledger` is the account of a program that owns each resource in one place: all
resources made are gone or held, each of them once. It is kept by getting a
number, by passing one on and by releasing one that is held (`Ledger.step`).
-/

namespace Machines

/-- Which resource a number stands for. `made` is the number of resources. -/
structure HandleTable (ν : Type u) where
  inUse : ν → Option Nat
  made : Nat

/-- What the holder of a number knows it to stand for: nothing, a resource, or
one that the holder has already released. -/
inductive Standing
  | nothing
  | live (k : Nat)
  | stale (k : Nat)
  deriving DecidableEq

def Standing.resource : Standing → Option Nat
  | .nothing => none
  | .live k | .stale k => some k

def Standing.released : Standing → Standing
  | .live k => .stale k
  | stands => stands

def Standing.isStale : Standing → Bool
  | .stale _ => true
  | _ => false

def Standing.owns (n : ν) : Standing → List (ν × Nat)
  | .live k => [(n, k)]
  | _ => []

namespace HandleTable

variable {ν : Type u} [DecidableEq ν]

def empty : HandleTable ν := ⟨fun _ => none, 0⟩

/-- The kernel gives out `n`, which is not in use. -/
def give (t : HandleTable ν) (n : ν) : Option (HandleTable ν × Nat) :=
  if t.inUse n = none then some (⟨Function.update t.inUse n (some t.made), t.made + 1⟩, t.made) else none

def release (t : HandleTable ν) (n : ν) : HandleTable ν := { t with inUse := Function.update t.inUse n none }

theorem give_other {t : HandleTable ν} (h : t.give n = some (t', k)) (hne : m ≠ n) :
    t'.inUse m = t.inUse m := by
  obtain ⟨-, heq⟩ := Option.ite_none_right_eq_some.mp h
  cases heq
  exact Function.update_of_ne hne ..

theorem give_made {t : HandleTable ν} (h : t.give n = some (t', k)) : k = t.made ∧ t'.made = t.made + 1 := by
  obtain ⟨-, heq⟩ := Option.ite_none_right_eq_some.mp h
  cases heq
  exact ⟨rfl, rfl⟩

theorem release_free {t : HandleTable ν} (h : t.inUse m = none) (n : ν) : (t.release n).inUse m = none := by
  simp only [release, Function.update_apply]
  split
  · rfl
  · exact h

end HandleTable

section

variable {ν : Type u} {t : HandleTable ν} {gone : List Nat} {held : List (ν × Nat)}

/-- Each resource is gone or held, once, and the numbers held stand for theirs. -/
structure Ledger (t : HandleTable ν) (gone : List Nat) (held : List (ν × Nat)) : Prop where
  live : ∀ p ∈ held, t.inUse p.1 = some p.2
  all : (gone ++ held.map Prod.snd).Perm (List.range t.made)

theorem ledger_empty : Ledger (HandleTable.empty : HandleTable ν) [] [] := ⟨nofun, .refl _⟩

theorem Ledger.perm (h : Ledger t gone held) (hperm : held'.Perm held) : Ledger t gone held' :=
  ⟨fun p hp => h.live p (hperm.mem_iff.mp hp), ((hperm.map _).append_left _).trans h.all⟩

theorem Ledger.nodup (h : Ledger t gone held) : (gone ++ held.map Prod.snd).Nodup :=
  h.all.nodup_iff.mpr List.nodup_range

theorem Ledger.gone_lt (h : Ledger t gone held) (hk : k ∈ gone) : k < t.made :=
  List.mem_range.mp (h.all.mem_iff.mp (List.mem_append_left _ hk))

theorem Ledger.held_lt (h : Ledger t gone held) (hp : p ∈ held) : p.2 < t.made :=
  List.mem_range.mp (h.all.mem_iff.mp (List.mem_append_right _ (List.mem_map_of_mem hp)))

theorem Ledger.not_gone (h : Ledger t gone held) (hp : p ∈ held) : p.2 ∉ gone :=
  fun hk => (List.nodup_append.mp h.nodup).2.2 _ hk _ (List.mem_map_of_mem hp) rfl

theorem Ledger.count (h : Ledger t gone held) (k : Nat) :
    gone.count k + (held.map Prod.snd).count k = if k < t.made then 1 else 0 := by
  rw [← List.count_append, h.all.count_eq, List.nodup_range.count]
  simp only [List.mem_range]

variable [DecidableEq ν]

theorem Ledger.give (h : Ledger t gone held) (hgive : t.give n = some (t', k)) :
    Ledger t' gone ((n, k) :: held) := by
  obtain ⟨hfree, heq⟩ := Option.ite_none_right_eq_some.mp hgive
  cases heq
  refine ⟨?_, ?_⟩
  · rintro p (_ | ⟨_, hp⟩)
    · exact Function.update_self ..
    · have hlive := h.live p hp
      have hne : p.1 ≠ n := by
        intro heq
        rw [heq, hfree] at hlive
        cases hlive
      exact (Function.update_of_ne hne ..).trans hlive
  · rw [List.range_succ]
    refine .trans ?_ (h.all.append_right _)
    rw [List.append_assoc]
    exact (List.perm_append_singleton _ _).symm.append_left gone

theorem Ledger.release (h : Ledger t gone ((n, k) :: held)) : Ledger (t.release n) (gone ++ [k]) held := by
  have hnodup := (List.nodup_append.mp h.nodup).2.1
  refine ⟨?_, ?_⟩
  · intro p hp
    have hlive := h.live p (.tail _ hp)
    have hne : p.1 ≠ n := by
      intro heq
      rw [heq, h.live _ (.head _)] at hlive
      refine (List.nodup_cons.mp hnodup).1 (List.mem_map.mpr ⟨p, hp, ?_⟩)
      exact (Option.some.inj hlive).symm
    exact (Function.update_of_ne hne ..).trans hlive
  · rw [List.append_assoc]
    exact h.all

/-- What a step of a program that keeps the account does to it; `ks` are the
resources it releases. -/
inductive LedgerStep (t : HandleTable ν) (held : List (ν × Nat)) :
    HandleTable ν → List (ν × Nat) → List Nat → Prop
  | pass : held'.Perm held → LedgerStep t held t held' []
  | give : t.give n = some (t', k) → held'.Perm ((n, k) :: held) → LedgerStep t held t' held' []
  | release : held.Perm ((n, k) :: held') → LedgerStep t held (t.release n) held' [k]
  /-- A number that is not in use. -/
  | miss : t.inUse n = none → held'.Perm held → LedgerStep t held (t.release n) held' []

theorem Ledger.step (h : Ledger t gone held) (hs : LedgerStep t held t' held' ks) :
    Ledger t' (gone ++ ks) held' := by
  cases hs with
  | pass hperm =>
    rw [List.append_nil]
    exact h.perm hperm
  | give hgive hperm =>
    rw [List.append_nil]
    exact (h.give hgive).perm hperm
  | release hperm => exact (h.perm hperm.symm).release
  | @miss n _ hfree hperm =>
    rw [List.append_nil]
    refine ⟨fun p hp => ?_, (h.perm hperm).all⟩
    have hlive := h.live p (hperm.mem_iff.mp hp)
    have hne : p.1 ≠ n := by
      intro heq
      rw [heq, hfree] at hlive
      cases hlive
    exact (Function.update_of_ne hne ..).trans hlive

theorem ledgerStep_close {stands : Standing} (hfree : stands = .nothing → t.inUse n = none)
    (hstale : stands.isStale = false) (hheld : held.Perm (stands.owns n ++ held')) :
    LedgerStep t held (t.release n) held' stands.resource.toList := by
  cases stands with
  | nothing => exact .miss (hfree rfl) hheld.symm
  | live k => exact .release hheld
  | stale k => cases hstale

omit [DecidableEq ν] in
/-- The number of a holder that has not released it stands for what the holder takes it for. -/
theorem Ledger.inUse_own {stands : Standing} (h : Ledger t gone held)
    (hfree : stands = .nothing → t.inUse n = none) (hstale : stands.isStale = false)
    (hheld : ∀ p ∈ stands.owns n, p ∈ held) : t.inUse n = stands.resource := by
  cases stands with
  | nothing => exact hfree rfl
  | live k => exact h.live _ (hheld _ (.head _))
  | stale k => cases hstale

theorem ledger_run {M : Machine σ α ε} {table : σ → HandleTable ν} {held : σ → List (ν × Nat)}
    {released : ε → List Nat} {I : σ → Prop} (htable : table M.init = .empty) (hheld : held M.init = [])
    (hinit : I M.init)
    (hstep : ∀ s a s' es, I s → ok s a → M.step s a = some (s', es) →
      I s' ∧ LedgerStep (table s) (held s) (table s') (held s') (es.flatMap released))
    (h : M.RunIf ok tr s) : I s ∧ Ledger (table s) (tr.flatMap released) (held s) := by
  refine h.invariant (I := fun tr s => I s ∧ Ledger (table s) (tr.flatMap released) (held s)) ?_ ?_
  · rw [htable, hheld]
    exact ⟨hinit, ledger_empty⟩
  · rintro tr s a s' es _ ⟨hi, hledger⟩ hok hs
    obtain ⟨hi', hs'⟩ := hstep s a s' es hi hok hs
    rw [List.flatMap_append]
    exact ⟨hi', hledger.step hs'⟩

end

-- ---------------------------------------------------------------------------
-- Numbers held by objects
-- ---------------------------------------------------------------------------

section

variable {xs : List P}

theorem forall_set {p : P → Prop} (h : ∀ x ∈ xs, p x) (i : Nat) (hy : p y) : ∀ x ∈ xs.set i y, p x := by
  intro x hx
  rcases List.mem_or_eq_of_mem_set hx with hx | rfl
  · exact h x hx
  · exact hy

theorem forall_concat {p : P → Prop} (h : ∀ x ∈ xs, p x) (hy : p y) : ∀ x ∈ xs ++ [y], p x := by
  intro x hx
  rcases List.mem_append.mp hx with hx | hx
  · exact h x hx
  · exact List.mem_singleton.mp hx ▸ hy

theorem forall_eraseIdx {p : P → Prop} (h : ∀ x ∈ xs, p x) (i : Nat) : ∀ x ∈ xs.eraseIdx i, p x :=
  fun x hx => h x (List.mem_of_mem_eraseIdx hx)

theorem perm_eraseIdx (h : xs[i]? = some x) : xs.Perm (x :: xs.eraseIdx i) := by
  obtain ⟨hi, rfl⟩ := List.getElem?_eq_some_iff.mp h
  exact (List.getElem_cons_eraseIdx_perm hi).symm

theorem flatMap_eraseIdx (f : P → List β) (h : xs[i]? = some x) :
    (xs.flatMap f).Perm (f x ++ (xs.eraseIdx i).flatMap f) := (perm_eraseIdx h).flatMap_right f

theorem flatMap_set (f : P → List β) (h : xs[i]? = some x) (y : P) :
    ((xs.set i y).flatMap f).Perm (f y ++ (xs.eraseIdx i).flatMap f) := by
  obtain ⟨hi, -⟩ := List.getElem?_eq_some_iff.mp h
  exact (List.set_perm_cons_eraseIdx hi y).flatMap_right f

theorem flatMap_take (f : P → List β) (hx : xs[i]? = some x) (hz : f z = []) :
    (xs.flatMap f).Perm (f x ++ (xs.set i z).flatMap f) := by
  have hset := flatMap_set f hx z
  rw [hz, List.nil_append] at hset
  exact (flatMap_eraseIdx f hx).trans (hset.symm.append_left _)

theorem getElem?_set_of_some {i j : Nat} (hx : xs[i]? = some x) (hy : xs[j]? = some y) :
    (xs.set i y)[j]? = some y := by
  rw [List.getElem?_set]
  split
  · rename_i hij
    rw [if_pos (hij ▸ (List.getElem?_eq_some_iff.mp hx).1)]
  · exact hy

theorem flatMap_move (f : P → List β) (hx : xs[i]? = some x) (hy : xs[j]? = some y) (hz : f z = []) :
    (f x ++ ((xs.set i y).set j z).flatMap f).Perm (xs.flatMap f) := by
  have hy' := getElem?_set_of_some hx hy
  have hmove : (f y ++ ((xs.set i y).set j z).flatMap f).Perm (f y ++ (xs.eraseIdx i).flatMap f) :=
    (flatMap_take f hy' hz).symm.trans (flatMap_set f hx y)
  have hrest := (List.perm_append_left_iff _).mp hmove
  exact (hrest.append_left _).trans (flatMap_eraseIdx f hx).symm

theorem flatMap_swap (f : P → List β) (hx : xs[i]? = some x) (hy : xs[j]? = some y) :
    (((xs.set i y).set j x).flatMap f).Perm (xs.flatMap f) := by
  have hy' := getElem?_set_of_some hx hy
  have herase : (f y ++ ((xs.set i y).eraseIdx j).flatMap f).Perm (f y ++ (xs.eraseIdx i).flatMap f) :=
    (flatMap_eraseIdx f hy').symm.trans (flatMap_set f hx y)
  have hrest := (List.perm_append_left_iff _).mp herase
  exact (flatMap_set f hy' x).trans ((hrest.append_left _).trans (flatMap_eraseIdx f hx).symm)

/-- What the object `j` has is passed to `i`; `z` is left at `j`, and what `i` had then is
let go. -/
theorem flatMap_pass (f : P → List β) (hx : xs[j]? = some x) (hz : f z = []) (hy : (xs.set j z)[i]? = some y) :
    (f y ++ ((xs.set j z).set i x).flatMap f).Perm (xs.flatMap f) := by
  have hset := (flatMap_set f hy x).append_left (f y)
  have herase := (flatMap_eraseIdx f hy).append_left (f x)
  refine hset.trans (.trans ?_ (herase.symm.trans (flatMap_take f hx hz).symm))
  rw [← List.append_assoc, ← List.append_assoc]
  exact List.perm_append_comm.append_right _

end

end Machines
