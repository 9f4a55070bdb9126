import Andren.Machine.Basic

/-!
# A mutex in shared memory

Objects of any number of processes share a mutex by its path. An owner opens or
makes the shared memory, initialises the mutex in it, and removes the name when
it is destroyed; a reference opens what is there. Each system call of a
constructor or destructor is a step of its own.

An owner initialises a mutex that another object may hold, and removes a name
whose memory other objects still map. Where neither happens to a mutex in use,
at most one of the objects of a path holds the lock (`shmMutex_exclusive`).
-/

namespace Andren.Base

open Machines

inductive ShmKind
  | owner
  | reference

/-- Shared memory lives on when its name is removed. -/
structure ShmObject where
  /-- It has room for a mutex. -/
  sized : Bool
  locked : Bool

/-- How far the constructor or the destructor has come, and with which memory. -/
inductive ShmPhase
  | construct
  /-- `shm_open` failed with `ENOENT`. -/
  | absent
  | opened (shm : Nat)
  | truncated (shm : Nat)
  | mapped (shm : Nat)
  | valid (m_shared_mutex : Nat)
  | unmapped
  /-- The constructor failed, or the object is destroyed. -/
  | invalid

def ShmPhase.shm : ShmPhase → Option Nat
  | .opened shm | .truncated shm | .mapped shm | .valid shm => some shm
  | .construct | .absent | .unmapped | .invalid => none

structure ShmMutex (Path : Type) where
  kind : ShmKind
  path : Path
  phase : ShmPhase
  /-- `lock` returned 0, and `unlock` has not been called since. -/
  holds : Bool

structure ShmSystem (Path : Type) where
  names : Path → Option Nat
  made : Nat
  shms : Nat → ShmObject
  mutexes : List (ShmMutex Path)

inductive ShmAct (Path : Type)
  | construct (kind : ShmKind) (path : Path)
  /-- The next system call of a constructor or destructor, and whether it succeeds. -/
  | next (i : Nat) (ok : Bool)
  | lock (i : Nat)
  | unlock (i : Nat)
  | destroy (i : Nat) (ok : Bool)

inductive ShmEv
  | lock (i : Nat) (ret : Int)
  | unlock (i : Nat) (ret : Int)

namespace ShmSystem

variable {Path : Type} [DecidableEq Path]

def enter (s : ShmSystem Path) (i : Nat) (x : ShmMutex Path) (phase : ShmPhase) : ShmSystem Path :=
  { s with mutexes := s.mutexes.set i { x with phase := phase } }

def next (s : ShmSystem Path) (i : Nat) (x : ShmMutex Path) (ok : Bool) : Option (ShmSystem Path) :=
  match x.kind, x.phase with
  | kind, .construct =>
    if !ok then some (s.enter i x .invalid)
    else match s.names x.path, kind with
      | some shm, _ => some (s.enter i x (.opened shm))
      | none, .owner => some (s.enter i x .absent)
      | none, .reference => some (s.enter i x .invalid)
  -- With O_CREAT the name may have come into being since.
  | .owner, .absent =>
    if !ok then some (s.enter i x .invalid)
    else match s.names x.path with
      | some shm => some (s.enter i x (.opened shm))
      | none => some { s.enter i x (.opened s.made) with
          names := Function.update s.names x.path (some s.made)
          made := s.made + 1
          shms := Function.update s.shms s.made ⟨false, false⟩ }
  | .owner, .opened shm =>
    if !ok then some (s.enter i x .invalid)
    else some { s.enter i x (.truncated shm) with
      shms := Function.update s.shms shm { s.shms shm with sized := true } }
  | .owner, .truncated shm => some (s.enter i x (if ok then .mapped shm else .invalid))
  | .owner, .mapped shm => some { s.enter i x (.valid shm) with
      shms := Function.update s.shms shm { s.shms shm with locked := false } }
  | .reference, .opened shm => some (s.enter i x (if ok then .valid shm else .invalid))
  | .owner, .unmapped => some { s.enter i x .invalid with
      names := if ok then Function.update s.names x.path none else s.names }
  | _, _ => none

/-- It waits while the mutex is locked. Memory without room for a mutex cannot
be read. -/
def lock (s : ShmSystem Path) (i : Nat) (x : ShmMutex Path) : Option (ShmSystem Path × List ShmEv) :=
  match x.phase with
  | .valid shm =>
    if (s.shms shm).sized && !(s.shms shm).locked then
      some ({ s with
        shms := Function.update s.shms shm { s.shms shm with locked := true }
        mutexes := s.mutexes.set i { x with holds := true } }, [.lock i 0])
    else none
  | .invalid => some (s, [.lock i (-1)])
  | _ => none

def unlock (s : ShmSystem Path) (i : Nat) (x : ShmMutex Path) : Option (ShmSystem Path × List ShmEv) :=
  match x.phase, x.holds with
  | .valid shm, true => some ({ s with
      shms := Function.update s.shms shm { s.shms shm with locked := false }
      mutexes := s.mutexes.set i { x with holds := false } }, [.unlock i 0])
  | _, _ => none

/-- `munmap`; when it fails the name stays. -/
def destroy (s : ShmSystem Path) (i : Nat) (x : ShmMutex Path) (ok : Bool) : Option (ShmSystem Path) :=
  match x.kind, x.phase, x.holds with
  | .owner, .valid _, false => some (s.enter i x (if ok then .unmapped else .invalid))
  | .reference, .valid _, false => some (s.enter i x .invalid)
  | _, _, _ => none

end ShmSystem

def shmMutex (Path : Type) [DecidableEq Path] : Machine (ShmSystem Path) (ShmAct Path) ShmEv where
  init := ⟨fun _ => none, 0, fun _ => ⟨false, false⟩, []⟩
  step s
    | .construct kind path =>
      some ({ s with mutexes := s.mutexes ++ [⟨kind, path, .construct, false⟩] }, [])
    | .next i ok => do
      let x ← s.mutexes[i]?
      let s ← s.next i x ok
      pure (s, [])
    | .lock i => do
      let x ← s.mutexes[i]?
      s.lock i x
    | .unlock i => do
      let x ← s.mutexes[i]?
      s.unlock i x
    | .destroy i ok => do
      let x ← s.mutexes[i]?
      let s ← s.destroy i x ok
      pure (s, [])

section

variable {Path : Type}

namespace ShmSystem

def At (s : ShmSystem Path) (i : Nat) (x : ShmMutex Path) : Prop := s.mutexes[i]? = some x

def Holds (s : ShmSystem Path) (path : Path) (i : Nat) : Prop :=
  ∃ x shm, s.At i x ∧ x.path = path ∧ x.phase = .valid shm ∧ x.holds = true

/-- At most one of the objects that are valid for a path holds the lock. -/
def Exclusive (s : ShmSystem Path) : Prop := ∀ path i j, s.Holds path i → s.Holds path j → i = j

/-- A mutex is initialised only while it is unlocked, and memory is made only
when no object of the path still has older memory. -/
def careful [DecidableEq Path] (s : ShmSystem Path) : ShmAct Path → Bool
  | .next i ok => match s.mutexes[i]? with
    | some ⟨.owner, path, .absent, _⟩ =>
      !ok || (s.names path).isSome || s.mutexes.all fun y => y.path ≠ path || y.phase.shm.isNone
    | some ⟨.owner, _, .mapped shm, _⟩ => !(s.shms shm).locked
    | _ => true
  | _ => true

end ShmSystem

-- ---------------------------------------------------------------------------
-- The invariant
-- ---------------------------------------------------------------------------

theorem shm_of_valid {x : ShmMutex Path} (h : x.phase = .valid shm) : x.phase.shm = some shm := by
  rw [h]
  rfl

structure NamesOk (s : ShmSystem Path) : Prop where
  made : ∀ path shm, s.names path = some shm → shm < s.made
  used : ∀ i x shm, s.At i x → x.phase.shm = some shm → shm < s.made
  /-- An object has the memory that its name stands for. -/
  named : ∀ i x shm shm', s.At i x → x.phase.shm = some shm → s.names x.path = some shm' → shm = shm'
  /-- The objects of a path have the same memory. -/
  same : ∀ i j x y shm shm', s.At i x → s.At j y → x.path = y.path → x.phase.shm = some shm →
    y.phase.shm = some shm' → shm = shm'

structure LocksOk (s : ShmSystem Path) : Prop where
  held : ∀ i x, s.At i x → x.holds = true → ∃ shm, x.phase = .valid shm ∧ (s.shms shm).locked = true
  one : ∀ i j x y shm, s.At i x → s.At j y → x.phase = .valid shm → y.phase = .valid shm →
    x.holds = true → y.holds = true → i = j

theorem exclusive_of_ok {s : ShmSystem Path} (hn : NamesOk s) (hl : LocksOk s) : s.Exclusive := by
  rintro path i j ⟨x, shm, hx, rfl, hphase, hholds⟩ ⟨y, shm', hy, hpath, hphase', hholds'⟩
  obtain rfl := hn.same i j x y shm shm' hx hy hpath.symm (shm_of_valid hphase) (shm_of_valid hphase')
  exact hl.one i j x y shm hx hy hphase hphase' hholds hholds'

theorem LocksOk.idle {s : ShmSystem Path} (h : LocksOk s) (hx : s.At i x)
    (hphase : ∀ shm, x.phase ≠ .valid shm) : x.holds = false := by
  rw [Bool.eq_false_iff]
  intro hholds
  obtain ⟨shm, hvalid, -⟩ := h.held i x hx hholds
  exact hphase shm hvalid

theorem at_set {s s' : ShmSystem Path} (hs : s'.mutexes = s.mutexes.set i x) (h : s'.At j y) :
    (j = i ∧ y = x) ∨ (j ≠ i ∧ s.At j y) := by
  unfold ShmSystem.At at h ⊢
  rw [hs, List.getElem?_set] at h
  split at h
  · rename_i hij
    split at h
    · exact .inl ⟨hij.symm, (Option.some.inj h).symm⟩
    · cases h
  · rename_i hij
    exact .inr ⟨fun h' => hij h'.symm, h⟩

theorem at_concat {s s' : ShmSystem Path} (hs : s'.mutexes = s.mutexes ++ [x]) (h : s'.At j y) :
    s.At j y ∨ y = x := by
  unfold ShmSystem.At at h ⊢
  rw [hs, List.getElem?_append] at h
  split at h
  · exact .inl h
  · exact .inr (List.mem_singleton.mp (List.mem_of_getElem? h))

theorem NamesOk.mono {s s' : ShmSystem Path} (h : NamesOk s) (hmade : s'.made = s.made)
    (hnames : ∀ path shm, s'.names path = some shm → s.names path = some shm)
    (hshm : ∀ i x shm, s'.At i x → x.phase.shm = some shm →
      (∃ x₀, s.At i x₀ ∧ x₀.path = x.path ∧ x₀.phase.shm = some shm) ∨ s.names x.path = some shm) :
    NamesOk s' where
  made path shm hname := hmade ▸ h.made path shm (hnames path shm hname)
  used i x shm hx hhas := by
    rw [hmade]
    rcases hshm i x shm hx hhas with ⟨x₀, hx₀, -, hhas₀⟩ | hname
    · exact h.used i x₀ shm hx₀ hhas₀
    · exact h.made x.path shm hname
  named i x shm shm' hx hhas hname' := by
    have hname' := hnames _ _ hname'
    rcases hshm i x shm hx hhas with ⟨x₀, hx₀, hpath, hhas₀⟩ | hname
    · exact h.named i x₀ shm shm' hx₀ hhas₀ (hpath ▸ hname')
    · exact Option.some.inj (hname.symm.trans hname')
  same i j x y shm shm' hx hy hxy hhas hhas' := by
    rcases hshm i x shm hx hhas with ⟨x₀, hx₀, hpath, hhas₀⟩ | hname <;>
      rcases hshm j y shm' hy hhas' with ⟨y₀, hy₀, hpath', hhas₀'⟩ | hname'
    · exact h.same i j x₀ y₀ shm shm' hx₀ hy₀ (hpath.trans (hxy.trans hpath'.symm)) hhas₀ hhas₀'
    · exact h.named i x₀ shm shm' hx₀ hhas₀ (by rw [hpath, hxy, hname'])
    · exact (h.named j y₀ shm' shm hy₀ hhas₀' (by rw [hpath', ← hxy, hname])).symm
    · rw [hxy, hname'] at hname
      exact (Option.some.inj hname).symm

theorem LocksOk.mono {s s' : ShmSystem Path} (h : LocksOk s)
    (hat : ∀ i x, s'.At i x → x.holds = true → s.At i x)
    (hlocked : ∀ i x shm, s.At i x → x.phase = .valid shm → (s'.shms shm).locked = (s.shms shm).locked) :
    LocksOk s' where
  held i x hx hholds := by
    have hx := hat i x hx hholds
    obtain ⟨shm, hphase, hlock⟩ := h.held i x hx hholds
    exact ⟨shm, hphase, (hlocked i x shm hx hphase).trans hlock⟩
  one i j x y shm hx hy hphase hphase' hholds hholds' :=
    h.one i j x y shm (hat i x hx hholds) (hat j y hy hholds') hphase hphase' hholds hholds'

theorem LocksOk.locked {s : ShmSystem Path} {x : ShmMutex Path} (h : LocksOk s) (hphase : x.phase = .valid shm)
    (hfree : (s.shms shm).locked = false) :
    LocksOk { s with
      shms := Function.update s.shms shm { s.shms shm with locked := true }
      mutexes := s.mutexes.set i { x with holds := true } } := by
  have hnone {j y} (hy : s.At j y) (hholds : y.holds = true) : y.phase ≠ .valid shm := by
    intro hphase'
    obtain ⟨shm', hvalid, hlock⟩ := h.held j y hy hholds
    cases hvalid.symm.trans hphase'
    cases hfree.symm.trans hlock
  refine ⟨?_, ?_⟩
  · intro j y hy hholds
    rcases at_set rfl hy with ⟨rfl, rfl⟩ | ⟨-, hy⟩
    · exact ⟨shm, hphase, by simp⟩
    · obtain ⟨shm', hvalid, hlock⟩ := h.held j y hy hholds
      have hne : shm' ≠ shm := fun heq => hnone hy hholds (heq ▸ hvalid)
      exact ⟨shm', hvalid, by simpa [Function.update_of_ne hne] using hlock⟩
  · intro j k y z shm' hy hz hvalid hvalid' hholds hholds'
    rcases at_set rfl hy with ⟨rfl, rfl⟩ | ⟨-, hy₀⟩ <;> rcases at_set rfl hz with ⟨rfl, rfl⟩ | ⟨-, hz₀⟩
    · rfl
    · cases hvalid.symm.trans hphase
      exact absurd hvalid' (hnone hz₀ hholds')
    · cases hvalid'.symm.trans hphase
      exact absurd hvalid (hnone hy₀ hholds)
    · exact h.one j k y z shm' hy₀ hz₀ hvalid hvalid' hholds hholds'

theorem LocksOk.unlocked {s : ShmSystem Path} (h : LocksOk s) (hx : s.At i x) (hphase : x.phase = .valid shm)
    (hholds : x.holds = true) :
    LocksOk { s with
      shms := Function.update s.shms shm { s.shms shm with locked := false }
      mutexes := s.mutexes.set i { x with holds := false } } := by
  have hat {j y} (hy : ShmSystem.At { s with
      shms := Function.update s.shms shm { s.shms shm with locked := false }
      mutexes := s.mutexes.set i { x with holds := false } } j y) (hy' : y.holds = true) :
      j ≠ i ∧ s.At j y := by
    rcases at_set rfl hy with ⟨-, rfl⟩ | hy
    · cases hy'
    · exact hy
  refine ⟨?_, ?_⟩
  · intro j y hy hy'
    obtain ⟨hji, hy₀⟩ := hat hy hy'
    obtain ⟨shm', hvalid, hlock⟩ := h.held j y hy₀ hy'
    have hne : shm' ≠ shm := by
      rintro rfl
      exact hji (h.one j i y x shm' hy₀ hx hvalid hphase hy' hholds)
    exact ⟨shm', hvalid, by simpa [Function.update_of_ne hne] using hlock⟩
  · intro j k y z shm' hy hz hvalid hvalid' hy' hz'
    exact h.one j k y z shm' (hat hy hy').2 (hat hz hz').2 hvalid hvalid' hy' hz'

-- ---------------------------------------------------------------------------
-- What a step does
-- ---------------------------------------------------------------------------

variable [DecidableEq Path]

theorem NamesOk.created {s : ShmSystem Path} {x : ShmMutex Path} (h : NamesOk s)
    (hfree : ∀ j y, s.At j y → y.path = x.path → y.phase.shm = none) :
    NamesOk { s with
      names := Function.update s.names x.path (some s.made)
      made := s.made + 1
      shms := Function.update s.shms s.made ⟨false, false⟩
      mutexes := s.mutexes.set i { x with phase := .opened s.made } } where
  made path shm hname := by
    dsimp only at hname
    rw [Function.update_apply] at hname
    split at hname
    · cases hname
      exact Nat.lt_succ_self _
    · exact Nat.lt_succ_of_lt (h.made path shm hname)
  used j y shm hy hhas := by
    rcases at_set rfl hy with ⟨rfl, rfl⟩ | ⟨-, hy⟩
    · cases hhas
      exact Nat.lt_succ_self _
    · exact Nat.lt_succ_of_lt (h.used j y shm hy hhas)
  named j y shm shm' hy hhas hname := by
    dsimp only at hname
    rw [Function.update_apply] at hname
    rcases at_set rfl hy with ⟨rfl, rfl⟩ | ⟨-, hy⟩
    · rw [if_pos rfl] at hname
      exact Option.some.inj (hhas.symm.trans hname)
    · split at hname
      · rename_i hpath
        cases hhas.symm.trans (hfree j y hy hpath)
      · exact h.named j y shm shm' hy hhas hname
  same j k y z shm shm' hy hz hpath hhas hhas' := by
    rcases at_set rfl hy with ⟨rfl, rfl⟩ | ⟨-, hy₀⟩ <;> rcases at_set rfl hz with ⟨rfl, rfl⟩ | ⟨-, hz₀⟩
    · exact Option.some.inj (hhas.symm.trans hhas')
    · cases hhas'.symm.trans (hfree k z hz₀ hpath.symm)
    · cases hhas.symm.trans (hfree j y hy₀ hpath)
    · exact h.same j k y z shm shm' hy₀ hz₀ hpath hhas hhas'

inductive ShmStep (s s' : ShmSystem Path) : Prop
  | same : s' = s → ShmStep s s'
  | constructed : s' = { s with mutexes := s.mutexes ++ [⟨kind, path, .construct, false⟩] } → ShmStep s s'
  /-- An object that does not hold the lock keeps its memory, or takes that of its name. -/
  | moved : s.At i x → x.holds = false →
      (∀ shm, p.shm = some shm → x.phase.shm = some shm ∨ s.names x.path = some shm) →
      s'.mutexes = s.mutexes.set i { x with phase := p } →
      (∀ path shm, s'.names path = some shm → s.names path = some shm) → s'.made = s.made →
      (∀ shm, (s'.shms shm).locked = (s.shms shm).locked) → ShmStep s s'
  | created : s.At i x → x.holds = false → (∀ j y, s.At j y → y.path = x.path → y.phase.shm = none) →
      s' = { s with
        names := Function.update s.names x.path (some s.made)
        made := s.made + 1
        shms := Function.update s.shms s.made ⟨false, false⟩
        mutexes := s.mutexes.set i { x with phase := .opened s.made } } → ShmStep s s'
  | locked : s.At i x → x.phase = .valid shm → (s.shms shm).locked = false →
      s' = { s with
        shms := Function.update s.shms shm { s.shms shm with locked := true }
        mutexes := s.mutexes.set i { x with holds := true } } → ShmStep s s'
  | unlocked : s.At i x → x.phase = .valid shm → x.holds = true →
      s' = { s with
        shms := Function.update s.shms shm { s.shms shm with locked := false }
        mutexes := s.mutexes.set i { x with holds := false } } → ShmStep s s'

theorem ShmStep.names {s s' : ShmSystem Path} (hs : ShmStep s s') (h : NamesOk s) : NamesOk s' := by
  cases hs with
  | same heq =>
    rw [heq]
    exact h
  | constructed heq =>
    subst heq
    refine h.mono rfl (fun _ _ => id) ?_
    intro j y shm hy hhas
    rcases at_concat rfl hy with hy | rfl
    · exact .inl ⟨y, hy, rfl, hhas⟩
    · cases hhas
  | moved hx hholds hphase hmut hnames hmade hlocked =>
    refine h.mono hmade hnames ?_
    intro j y shm hy hhas
    rcases at_set hmut hy with ⟨rfl, rfl⟩ | ⟨-, hy⟩
    · exact (hphase shm hhas).imp_left fun hhas => ⟨_, hx, rfl, hhas⟩
    · exact .inl ⟨y, hy, rfl, hhas⟩
  | created hx hholds hfree heq =>
    subst heq
    exact h.created hfree
  | locked hx hphase hlocked heq | unlocked hx hphase hholds heq =>
    subst heq
    refine h.mono rfl (fun _ _ => id) ?_
    intro j y shm hy hhas
    rcases at_set rfl hy with ⟨rfl, rfl⟩ | ⟨-, hy⟩
    · exact .inl ⟨_, hx, rfl, hhas⟩
    · exact .inl ⟨y, hy, rfl, hhas⟩

theorem ShmStep.locks {s s' : ShmSystem Path} (hs : ShmStep s s') (hn : NamesOk s) (h : LocksOk s) :
    LocksOk s' := by
  cases hs with
  | same heq =>
    rw [heq]
    exact h
  | constructed heq =>
    subst heq
    refine h.mono ?_ fun _ _ _ _ _ => rfl
    intro j y hy hholds
    rcases at_concat rfl hy with hy | rfl
    · exact hy
    · cases hholds
  | moved hx hidle hphase hmut hnames hmade hlocked =>
    refine h.mono ?_ fun _ _ shm _ _ => hlocked shm
    intro j y hy hholds
    rcases at_set hmut hy with ⟨-, rfl⟩ | ⟨-, hy⟩
    · cases hidle.symm.trans hholds
    · exact hy
  | created hx hidle hfree heq =>
    subst heq
    refine h.mono ?_ ?_
    · intro j y hy hholds
      rcases at_set rfl hy with ⟨-, rfl⟩ | ⟨-, hy⟩
      · cases hidle.symm.trans hholds
      · exact hy
    · intro j y shm hy hphase
      have hlt := hn.used j y shm hy (shm_of_valid hphase)
      exact congrArg ShmObject.locked (Function.update_of_ne (Nat.ne_of_lt hlt) _ _)
  | locked hx hphase hfree heq =>
    subst heq
    exact h.locked hphase hfree
  | unlocked hx hphase hholds heq =>
    subst heq
    exact h.unlocked hx hphase hholds

theorem locked_update {shms : Nat → ShmObject} {shm : Nat} {b : ShmObject} (hb : b.locked = (shms shm).locked)
    (shm' : Nat) : (Function.update shms shm b shm').locked = (shms shm').locked := by
  rcases eq_or_ne shm' shm with rfl | hne
  · rw [Function.update_self, hb]
  · rw [Function.update_of_ne hne]

theorem shmStep_enter {s : ShmSystem Path} {x : ShmMutex Path} (hx : s.At i x) (hidle : x.holds = false)
    (hphase : ∀ shm, phase.shm = some shm → x.phase.shm = some shm ∨ s.names x.path = some shm) :
    ShmStep s (s.enter i x phase) :=
  .moved hx hidle hphase rfl (fun _ _ => id) rfl fun _ => rfl

theorem next_shm {s : ShmSystem Path} {x : ShmMutex Path} (h : LocksOk s) (hx : s.At i x)
    (hok : s.careful (.next i ok) = true) (hs : s.next i x ok = some s') : ShmStep s s' := by
  have hinvalid (hidle : x.holds = false) : ShmStep s (s.enter i x .invalid) := shmStep_enter hx hidle nofun
  have hopened {shm} (hidle : x.holds = false) (hname : s.names x.path = some shm) :
      ShmStep s (s.enter i x (.opened shm)) := by
    refine shmStep_enter hx hidle fun shm' heq => .inr ?_
    rwa [← Option.some.inj heq]
  obtain ⟨kind, path, phase, holds⟩ := x
  have hget : s.mutexes[i]? = some ⟨kind, path, phase, holds⟩ := hx
  simp only [ShmSystem.careful, hget] at hok
  cases phase with
  | construct =>
    have hidle := h.idle hx nofun
    simp only [ShmSystem.next] at hs
    split at hs
    · cases hs
      exact hinvalid hidle
    · split at hs <;> cases hs
      · rename_i hname
        exact hopened hidle hname
      · exact shmStep_enter hx hidle nofun
      · exact hinvalid hidle
  | absent =>
    have hidle := h.idle hx nofun
    cases kind with
    | reference => cases hs
    | owner =>
      simp only [ShmSystem.next] at hs
      split at hs
      · cases hs
        exact hinvalid hidle
      · split at hs <;> cases hs
        · rename_i hname
          exact hopened hidle hname
        · rename_i hcall _ hname
          refine .created hx hidle ?_ rfl
          intro j y hy hpath
          simp only [hname, Option.isSome_none, Bool.or_false, Bool.or_eq_true, hcall, Bool.false_eq_true,
            false_or] at hok
          have hy' := List.all_eq_true.mp hok y (List.mem_of_getElem? hy)
          simpa [hpath] using hy'
  | opened shm =>
    have hidle := h.idle hx nofun
    cases kind with
    | owner =>
      simp only [ShmSystem.next] at hs
      split at hs <;> cases hs
      · exact hinvalid hidle
      · exact .moved (p := .truncated shm) hx hidle (fun _ => .inl) rfl (fun _ _ => id) rfl (locked_update rfl)
    | reference =>
      cases hs
      cases ok with
      | true => exact shmStep_enter hx hidle fun _ => .inl
      | false => exact hinvalid hidle
  | truncated shm =>
    have hidle := h.idle hx nofun
    cases kind with
    | reference => cases hs
    | owner =>
      cases hs
      cases ok with
      | true => exact shmStep_enter hx hidle fun _ => .inl
      | false => exact hinvalid hidle
  | mapped shm =>
    have hidle := h.idle hx nofun
    cases kind with
    | reference => cases hs
    | owner =>
      cases hs
      have hfree : (s.shms shm).locked = false := by simpa using hok
      exact .moved (p := .valid shm) hx hidle (fun _ => .inl) rfl (fun _ _ => id) rfl (locked_update hfree.symm)
  | unmapped =>
    have hidle := h.idle hx nofun
    cases kind with
    | reference => cases hs
    | owner =>
      cases hs
      refine .moved (p := .invalid) hx hidle nofun rfl ?_ rfl fun _ => rfl
      intro path' shm hname
      dsimp only at hname
      split at hname
      · rw [Function.update_apply] at hname
        split at hname
        · cases hname
        · exact hname
      · exact hname
  | valid shm => cases kind <;> cases hs
  | invalid => cases kind <;> cases hs

theorem step_shm {s : ShmSystem Path} (h : LocksOk s) (hok : s.careful a = true)
    (hs : (shmMutex Path).step s a = some (s', es)) : ShmStep s s' := by
  cases a with
  | construct kind path =>
    cases hs
    exact .constructed rfl
  | next i ok =>
    obtain ⟨x, hx, hs⟩ := Option.bind_eq_some_iff.mp hs
    obtain ⟨s₁, hnext, hs⟩ := Option.bind_eq_some_iff.mp hs
    cases hs
    exact next_shm h hx hok hnext
  | lock i =>
    obtain ⟨x, hx, hs⟩ := Option.bind_eq_some_iff.mp hs
    unfold ShmSystem.lock at hs
    split at hs
    · rename_i shm hphase
      obtain ⟨hfree, hs⟩ := Option.ite_none_right_eq_some.mp hs
      cases hs
      exact .locked hx hphase (by simpa using And.right (by simpa using hfree)) rfl
    · cases hs
      exact .same rfl
    · cases hs
  | unlock i =>
    obtain ⟨x, hx, hs⟩ := Option.bind_eq_some_iff.mp hs
    unfold ShmSystem.unlock at hs
    split at hs <;> cases hs
    rename_i shm hphase hholds
    exact .unlocked hx hphase hholds rfl
  | destroy i ok =>
    obtain ⟨x, hx, hs⟩ := Option.bind_eq_some_iff.mp hs
    obtain ⟨s₁, hdestroy, hs⟩ := Option.bind_eq_some_iff.mp hs
    cases hs
    unfold ShmSystem.destroy at hdestroy
    split at hdestroy <;> cases hdestroy
    · rename_i hholds _
      refine shmStep_enter hx hholds fun shm heq => ?_
      split at heq <;> cases heq
    · rename_i hholds _
      exact shmStep_enter hx hholds nofun

/-- In every careful run at most one of the objects that are valid for a path
holds the lock. -/
theorem shmMutex_exclusive (Path : Type) [DecidableEq Path] (tr : List ShmEv) (s : ShmSystem Path)
    (h : (shmMutex Path).RunIf (fun s a => s.careful a = true) tr s) : s.Exclusive := by
  have hok : NamesOk s ∧ LocksOk s := by
    refine h.state_invariant (I := fun s => NamesOk s ∧ LocksOk s) ?_ ?_
    · have hnone (i : Nat) (x : ShmMutex Path) (hx : (shmMutex Path).init.At i x) : False := by cases hx
      refine ⟨⟨nofun, ?_, ?_, ?_⟩, ?_, ?_⟩
      · exact fun i x _ hx => (hnone i x hx).elim
      · exact fun i x _ _ hx => (hnone i x hx).elim
      · exact fun i _ x _ _ _ hx => (hnone i x hx).elim
      · exact fun i x hx => (hnone i x hx).elim
      · exact fun i _ x _ _ hx => (hnone i x hx).elim
    · rintro s a s' es ⟨hn, hl⟩ hcareful hs
      have hstep := step_shm hl hcareful hs
      exact ⟨hstep.names hn, hstep.locks hn hl⟩
  exact exclusive_of_ok hok.1 hok.2

end

theorem shmMutex_exclusive_run : ∃ tr s,
    (shmMutex String).RunIf (fun s a => s.careful a = true) tr s ∧ s.made = 2 ∧
      tr = [.lock 0 0, .unlock 0 0, .lock 1 0, .unlock 1 0, .lock 2 0] ∧ s.Exclusive := by
  have hr : (((shmMutex String).only fun s a => s.careful a = true).replay
      ⟨fun _ => none, 0, fun _ => ⟨false, false⟩, []⟩
      [.construct .owner "/m", .next 0 true, .next 0 true, .next 0 true, .next 0 true, .next 0 true,
        .construct .reference "/m", .next 1 true, .next 1 true, .lock 0, .unlock 0, .lock 1, .unlock 1,
        .destroy 0 true, .next 0 true, .destroy 1 true, .construct .owner "/m", .next 2 true, .next 2 true,
        .next 2 true, .next 2 true, .next 2 true, .lock 2]).isSome := rfl
  have hrun := Machine.steps_of_replay_only (Option.some_get hr).symm
  exact ⟨_, _, hrun, rfl, rfl, shmMutex_exclusive String _ _ hrun⟩

/-- A second owner initialises the mutex that the first one holds; and with a
new owner after the first one is gone, a reference holds the old mutex. -/
theorem shmMutex_not_exclusive :
    (∃ tr s, (shmMutex String).Run tr s ∧ tr = [.lock 0 0, .lock 1 0] ∧ ¬s.Exclusive) ∧
      ∃ tr s, (shmMutex String).Run tr s ∧ tr = [.lock 1 0, .lock 2 0] ∧ ¬s.Exclusive := by
  have hr : ((shmMutex String).replay ⟨fun _ => none, 0, fun _ => ⟨false, false⟩, []⟩
      [.construct .owner "/m", .next 0 true, .next 0 true, .next 0 true, .next 0 true, .next 0 true, .lock 0,
        .construct .owner "/m", .next 1 true, .next 1 true, .next 1 true, .next 1 true, .lock 1]).isSome := rfl
  have hr' : ((shmMutex String).replay ⟨fun _ => none, 0, fun _ => ⟨false, false⟩, []⟩
      [.construct .owner "/m", .next 0 true, .next 0 true, .next 0 true, .next 0 true, .next 0 true,
        .construct .reference "/m", .next 1 true, .next 1 true, .lock 1, .destroy 0 true, .next 0 true,
        .construct .owner "/m", .next 2 true, .next 2 true, .next 2 true, .next 2 true, .next 2 true,
        .lock 2]).isSome := rfl
  refine ⟨⟨_, _, Machine.steps_of_replay (Option.some_get hr).symm, rfl, fun hex => ?_⟩,
    ⟨_, _, Machine.steps_of_replay (Option.some_get hr').symm, rfl, fun hex => ?_⟩⟩
  · cases hex "/m" 0 1 ⟨_, 0, rfl, rfl, rfl, rfl⟩ ⟨_, 0, rfl, rfl, rfl, rfl⟩
  · cases hex "/m" 1 2 ⟨_, 0, rfl, rfl, rfl, rfl⟩ ⟨_, 1, rfl, rfl, rfl, rfl⟩

end Andren.Base
