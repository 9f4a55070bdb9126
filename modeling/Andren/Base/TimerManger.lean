import Andren.Base.BinaryHeap
import Andren.Machine.Basic
import Mathlib.Data.List.Count
import Mathlib.Data.List.Nodup
import Mathlib.Data.List.Perm.Basic
import Mathlib.Data.Option.Basic

/-!
# The timer manager

`TimerManger` keeps its timers in a heap, with their deadlines as keys. `check`
takes the due ones out, and `proxy_exec` runs one of these and puts it back when
its task returns true. A task may create timers itself.

In every run each task that was created is in one place until a run of it
returns false, and what is in the heap was queued at the clock that its deadline
counts from (`Accounted`).
-/

namespace Andren.Base

open Machines

/-- A `std::function<bool()>`: the number of the task created, or empty. -/
abbrev TimerTask := Option Nat

abbrev Timer := KVPair (BitVec 64) TimerTask

abbrev TimerPair := KVPair (BitVec 64) Timer

def taskOf (p : TimerPair) : TimerTask := p.m_val.m_val

/-- `returned` are the pairs that `check` gave and that still wait for their
`proxy_exec`, `executing` those inside it, the innermost first. -/
structure TimerManger (heap : MinHeapTy (BitVec 64) Timer) where
  m_minHeap : heap.Heap
  returned : List TimerPair
  executing : List TimerPair
  /-- How many tasks were created. -/
  created : Nat

/-- A clock reading comes with the action that makes it. -/
inductive TimerAct
  | createTask (msec : BitVec 64) (empty : Bool) (clock : BitVec 64)
  | check (clock : BitVec 64)
  /-- `proxy_exec` of a returned pair, up to the task. -/
  | proxyExec (j : Nat)
  | taskReturns (ret : Bool) (clock : BitVec 64)
  | taskThrows

inductive TimerEv
  | created (id : Nat) (msec clock : BitVec 64)
  | createdEmpty
  | checked (tasks : List TimerTask)
  | began (task : TimerTask)
  | ranTrue (task : TimerTask) (clock : BitVec 64)
  | ranFalse (task : TimerTask)
  | threw
  deriving DecidableEq

namespace TimerManger

variable {heap : MinHeapTy (BitVec 64) Timer}

def new (heap : MinHeapTy (BitVec 64) Timer) : TimerManger heap := ⟨heap.new, [], [], 0⟩

def createTask (m_minHeap : heap.Heap) (msec : BitVec 64) (task : TimerTask) (clock : BitVec 64) : heap.Heap :=
  heap.push m_minHeap (msec + clock) ⟨msec, task⟩

/-- The loop of `check`; `value` of an empty optional throws. -/
def checkLoop (crrt : BitVec 64) : Nat → heap.Heap → List TimerPair → Option (heap.Heap × List TimerPair)
  | 0, h, waitList => some (h, waitList)
  | fuel + 1, h, waitList =>
    if 0 < heap.size h then do
      let p ← heap.minPair h
      if p.m_key ≤ crrt then
        match heap.extractMinPair h with
        | (h, some pair_value) => checkLoop crrt fuel h (waitList ++ [pair_value])
        | (_, none) => none
      else some (h, waitList)
    else some (h, waitList)

/-- Each round takes a pair out, so the size bounds the rounds. -/
def check (h : heap.Heap) (crrt : BitVec 64) : Option (heap.Heap × List TimerPair) :=
  checkLoop crrt (heap.size h) h []

end TimerManger

open TimerManger in
def timerManger (heap : MinHeapTy (BitVec 64) Timer) : Machine (TimerManger heap) TimerAct TimerEv where
  init := new heap
  step s
    | .createTask msec empty clock =>
      if empty then some ({ s with m_minHeap := createTask s.m_minHeap msec none clock }, [.createdEmpty])
      else some ({ s with
        m_minHeap := createTask s.m_minHeap msec (some s.created) clock
        created := s.created + 1 }, [.created s.created msec clock])
    | .check clock => do
      let (h, waitList) ← check s.m_minHeap clock
      pure ({ s with m_minHeap := h, returned := s.returned ++ waitList },
        [.checked (waitList.map taskOf)])
    | .proxyExec j => do
      let p ← s.returned[j]?
      let s := { s with returned := s.returned.eraseIdx j }
      match taskOf p with
      | none => pure (s, [.threw])
      | some id => pure ({ s with executing := p :: s.executing }, [.began (some id)])
    | .taskReturns ret clock => match s.executing with
      | [] => none
      | p :: executing =>
        let s := { s with executing := executing }
        if ret then
          some ({ s with m_minHeap := createTask s.m_minHeap p.m_val.m_key (taskOf p) clock },
            [.ranTrue (taskOf p) clock])
        else some (s, [.ranFalse (taskOf p)])
    | .taskThrows => match s.executing with
      | [] => none
      | _ :: executing => some ({ s with executing := executing }, [.threw])

def TasksOk (heap : MinHeapTy (BitVec 64) Timer) (_ : TimerManger heap) : TimerAct → Prop
  | .createTask _ empty _ => empty = false
  | .taskThrows => False
  | _ => True

-- ---------------------------------------------------------------------------
-- Where the tasks are
-- ---------------------------------------------------------------------------

section

variable {heap : MinHeapTy (BitVec 64) Timer}

def TimerManger.instances (s : TimerManger heap) : List TimerPair :=
  heap.pairs s.m_minHeap ++ (s.returned ++ s.executing)

def TimerManger.live (s : TimerManger heap) : List TimerTask := s.instances.map taskOf

def createdIds (tr : List TimerEv) : List Nat := tr.filterMap fun
  | .created id _ _ => some id
  | _ => none

def intervals (id : Nat) (tr : List TimerEv) : List (BitVec 64) := tr.filterMap fun
  | .created id' msec _ => if id' = id then some msec else none
  | _ => none

def queuedAt (id : Nat) (tr : List TimerEv) : List (BitVec 64) := tr.filterMap fun
  | .created id' _ clock => if id' = id then some clock else none
  | .ranTrue task clock => if task = some id then some clock else none
  | _ => none

def endedTasks (tr : List TimerEv) : List TimerTask := tr.filterMap fun
  | .ranFalse task => some task
  | _ => none

structure Accounted (tr : List TimerEv) (s : TimerManger heap) : Prop where
  /-- One live instance from the creation to a run that returns false. -/
  live : ∀ id, s.live.count (some id) = if id ∈ createdIds tr ∧ .ranFalse (some id) ∉ tr then 1 else 0
  interval : ∀ p ∈ s.instances, ∃ id, taskOf p = some id ∧ intervals id tr = [p.m_val.m_key]
  deadline : ∀ p ∈ heap.pairs s.m_minHeap, ∀ id, taskOf p = some id →
    ∃ clock, (queuedAt id tr).getLast? = some clock ∧ p.m_key = p.m_val.m_key + clock
  requeued : ∀ t id clock, tr = t ++ [.ranTrue (some id) clock] →
    ∃ p ∈ heap.pairs s.m_minHeap, taskOf p = some id

variable {tr : List TimerEv} {s s' : TimerManger heap}

theorem checkLoop_perm (h : TimerManger.checkLoop crrt fuel m waitList = some (m', waitList')) :
    (heap.pairs m' ++ waitList').Perm (heap.pairs m ++ waitList) := by
  induction fuel generalizing m waitList with
  | zero =>
    cases h
    exact .refl _
  | succ fuel ih =>
    rw [TimerManger.checkLoop] at h
    split at h
    · rename_i hsize
      simp only [Option.bind_eq_bind, Option.bind_eq_some_iff] at h
      obtain ⟨p, -, h⟩ := h
      split at h
      · obtain ⟨m₁, p₁, hextract, hperm⟩ := heap.extract_some m hsize
        rw [hextract] at h
        refine (ih h).trans ?_
        rw [← List.append_assoc]
        refine (List.perm_append_singleton p₁ _).trans ?_
        exact hperm.symm.append_right waitList
      · cases h
        exact .refl _
    · cases h
      exact .refl _

/-- `check` returns, and what stays behind is not due. -/
theorem checkLoop_done {m : heap.Heap} (crrt : BitVec 64) (waitList : List TimerPair)
    (hfuel : heap.size m ≤ fuel) : ∃ m' waitList',
    TimerManger.checkLoop crrt fuel m waitList = some (m', waitList') ∧
      (0 < heap.size m' → ∃ p, heap.minPair m' = some p ∧ ¬p.m_key ≤ crrt) := by
  induction fuel generalizing m waitList with
  | zero => exact ⟨m, waitList, rfl, fun hsize => absurd hsize (Nat.not_lt.mpr hfuel)⟩
  | succ fuel ih =>
    rw [TimerManger.checkLoop]
    split
    · rename_i hsize
      obtain ⟨p, hp⟩ := heap.minPair_some m hsize
      rw [hp]
      simp only [Option.bind_eq_bind, Option.bind_some]
      split
      · obtain ⟨m₁, p₁, hextract, hperm⟩ := heap.extract_some m hsize
        rw [hextract]
        refine ih _ ?_
        have hlength := hperm.length_eq
        rw [List.length_cons, ← heap.size_eq, ← heap.size_eq] at hlength
        exact Nat.le_of_succ_le_succ (Nat.le_trans (Nat.le_of_eq hlength.symm) hfuel)
      · rename_i hlate
        exact ⟨m, waitList, rfl, fun _ => ⟨p, hp, hlate⟩⟩
    · rename_i hsize
      exact ⟨m, waitList, rfl, fun h => absurd h hsize⟩

-- ---------------------------------------------------------------------------
-- What a step does
-- ---------------------------------------------------------------------------

inductive TimerStep (s : TimerManger heap) : TimerAct → TimerManger heap → List TimerEv → Prop
  | createdEmpty : TimerStep s (.createTask msec true clock)
      { s with m_minHeap := TimerManger.createTask s.m_minHeap msec none clock } [.createdEmpty]
  | created : TimerStep s (.createTask msec false clock)
      { s with
        m_minHeap := TimerManger.createTask s.m_minHeap msec (some s.created) clock
        created := s.created + 1 } [.created s.created msec clock]
  | check : TimerManger.check s.m_minHeap clock = some (h, waitList) → TimerStep s (.check clock)
      { s with m_minHeap := h, returned := s.returned ++ waitList } [.checked (waitList.map taskOf)]
  | threw : s.returned[j]? = some p → taskOf p = none → TimerStep s (.proxyExec j)
      { s with returned := s.returned.eraseIdx j } [.threw]
  | began {id : Nat} : s.returned[j]? = some p → taskOf p = some id → TimerStep s (.proxyExec j)
      { s with returned := s.returned.eraseIdx j, executing := p :: s.executing } [.began (some id)]
  | ranTrue : s.executing = p :: executing → TimerStep s (.taskReturns true clock)
      { s with
        m_minHeap := TimerManger.createTask s.m_minHeap p.m_val.m_key (taskOf p) clock
        executing := executing } [.ranTrue (taskOf p) clock]
  | ranFalse : s.executing = p :: executing → TimerStep s (.taskReturns false clock)
      { s with executing := executing } [.ranFalse (taskOf p)]
  | taskThrows : s.executing = p :: executing → TimerStep s .taskThrows { s with executing := executing } [.threw]

theorem timerManger_step {s s' : TimerManger heap} (hs : (timerManger heap).step s a = some (s', es)) :
    TimerStep s a s' es := by
  cases a with
  | createTask msec empty clock =>
    cases empty <;> cases hs
    · exact .created
    · exact .createdEmpty
  | check clock =>
    obtain ⟨⟨m, waitList⟩, hcheck, hs⟩ := Option.bind_eq_some_iff.mp hs
    cases hs
    exact .check hcheck
  | proxyExec j =>
    obtain ⟨p, hp, hs⟩ := Option.bind_eq_some_iff.mp hs
    cases htask : taskOf p with
    | none =>
      simp only [htask] at hs
      cases hs
      exact .threw hp htask
    | some id =>
      simp only [htask] at hs
      cases hs
      exact .began hp htask
  | taskReturns ret clock =>
    simp only [timerManger] at hs
    split at hs
    · cases hs
    next hexec =>
      cases ret <;> cases hs
      · exact .ranFalse hexec
      · exact .ranTrue hexec
  | taskThrows =>
    simp only [timerManger] at hs
    split at hs
    · cases hs
    next hexec =>
      cases hs
      exact .taskThrows hexec

-- ---------------------------------------------------------------------------
-- The books
-- ---------------------------------------------------------------------------

/-- What the steps preserve: the live tasks and those that ended are the tasks
created, and each instance is as it was queued. -/
structure Books (tr : List TimerEv) (s : TimerManger heap) : Prop where
  ids : createdIds tr = List.range s.created
  perm : (s.live ++ endedTasks tr).Perm ((List.range s.created).map some)
  interval : ∀ p ∈ s.instances, ∃ id, taskOf p = some id ∧ intervals id tr = [p.m_val.m_key]
  deadline : ∀ p ∈ heap.pairs s.m_minHeap, ∀ id, taskOf p = some id →
    ∃ clock, (queuedAt id tr).getLast? = some clock ∧ p.m_key = p.m_val.m_key + clock
  requeued : ∀ t id clock, tr = t ++ [.ranTrue (some id) clock] →
    ∃ p ∈ heap.pairs s.m_minHeap, taskOf p = some id

theorem createdIds_append (tr tr' : List TimerEv) :
    createdIds (tr ++ tr') = createdIds tr ++ createdIds tr' := List.filterMap_append

theorem endedTasks_append (tr tr' : List TimerEv) :
    endedTasks (tr ++ tr') = endedTasks tr ++ endedTasks tr' := List.filterMap_append

theorem intervals_append (id : Nat) (tr tr' : List TimerEv) :
    intervals id (tr ++ tr') = intervals id tr ++ intervals id tr' := List.filterMap_append

theorem queuedAt_append (id : Nat) (tr tr' : List TimerEv) :
    queuedAt id (tr ++ tr') = queuedAt id tr ++ queuedAt id tr' := List.filterMap_append

theorem intervals_eq_nil {id : Nat} (h : id ∉ createdIds tr) : intervals id tr = [] := by
  rw [intervals, List.filterMap_eq_nil_iff]
  intro e he
  cases e with
  | created id' msec clock =>
    refine if_neg ?_
    rintro rfl
    exact h (List.mem_filterMap.mpr ⟨_, he, rfl⟩)
  | _ => rfl

def Quiet : TimerEv → Prop
  | .checked _ | .began _ | .threw => True
  | _ => False

theorem quiet_books (he : Quiet e) (id : Nat) : createdIds [e] = [] ∧ endedTasks [e] = [] ∧
    intervals id [e] = [] ∧ queuedAt id [e] = [] := by
  cases e with
  | checked | began | threw => exact ⟨rfl, rfl, rfl, rfl⟩
  | _ => cases he

theorem Books.move (h : Books tr s) (he : Quiet e) (hcreated : s'.created = s.created)
    (hinstances : s'.instances.Perm s.instances)
    (hpairs : ∀ p ∈ heap.pairs s'.m_minHeap, p ∈ heap.pairs s.m_minHeap) : Books (tr ++ [e]) s' := by
  obtain ⟨hids, hended, -, -⟩ := quiet_books he 0
  refine ⟨?_, ?_, ?_, ?_, ?_⟩
  · rw [createdIds_append, hids, List.append_nil, hcreated]
    exact h.ids
  · rw [endedTasks_append, hended, List.append_nil, hcreated]
    exact ((hinstances.map _).append_right _).trans h.perm
  · intro p hp
    obtain ⟨id, hid, hinterval⟩ := h.interval p (hinstances.mem_iff.mp hp)
    refine ⟨id, hid, ?_⟩
    rw [intervals_append, (quiet_books he id).2.2.1, List.append_nil, hinterval]
  · intro p hp id hid
    obtain ⟨clock, hclock, hkey⟩ := h.deadline p (hpairs p hp) id hid
    refine ⟨clock, ?_, hkey⟩
    rw [queuedAt_append, (quiet_books he id).2.2.2, List.append_nil, hclock]
  · intro t id clock heq
    obtain ⟨-, heq⟩ := List.append_inj' heq rfl
    cases heq
    cases he

theorem Books.created (h : Books tr s) : Books (tr ++ [.created s.created msec clock]) { s with
    m_minHeap := TimerManger.createTask s.m_minHeap msec (some s.created) clock
    created := s.created + 1 } := by
  have hpush := heap.pairs_push s.m_minHeap (msec + clock) ⟨msec, some s.created⟩
  have hnew : s.created ∉ createdIds tr := by
    rw [h.ids]
    exact List.not_mem_range_self
  have hold : ∀ p ∈ s.instances, ∀ id, taskOf p = some id → s.created ≠ id := by
    rintro p hp _ hid rfl
    obtain ⟨id', hid', hinterval⟩ := h.interval p hp
    obtain rfl := Option.some.inj (hid.symm.trans hid')
    rw [intervals_eq_nil hnew] at hinterval
    cases hinterval
  refine ⟨?_, ?_, ?_, ?_, ?_⟩
  · rw [createdIds_append, h.ids, List.range_succ]
    rfl
  · rw [endedTasks_append, show endedTasks [.created s.created msec clock] = [] from rfl, List.append_nil,
      List.range_succ, List.map_append]
    refine .trans ?_ (List.perm_append_singleton (some s.created) _).symm
    refine .trans ?_ (h.perm.cons _)
    exact ((hpush.append_right _).map _).append_right _
  · intro p hp
    have hp' := (hpush.append_right _).mem_iff.mp hp
    rcases List.mem_cons.mp hp' with rfl | hp'
    · refine ⟨s.created, rfl, ?_⟩
      rw [intervals_append, intervals_eq_nil hnew]
      simp [intervals]
    · obtain ⟨id, hid, hinterval⟩ := h.interval p hp'
      refine ⟨id, hid, ?_⟩
      rw [intervals_append, hinterval]
      simp [intervals, hold p hp' id hid]
  · intro p hp id hid
    rcases List.mem_cons.mp (hpush.mem_iff.mp hp) with rfl | hp'
    · cases hid
      refine ⟨clock, ?_, rfl⟩
      rw [queuedAt_append]
      simp [queuedAt]
    · obtain ⟨clock', hclock, hkey⟩ := h.deadline p hp' id hid
      refine ⟨clock', ?_, hkey⟩
      rw [queuedAt_append]
      simp [queuedAt, hold p (List.mem_append_left _ hp') id hid, ← hclock]
  · intro t id clock' heq
    obtain ⟨-, heq⟩ := List.append_inj' heq rfl
    cases heq

theorem Books.nodup (h : Books tr s) : s.live.Nodup := by
  have hnodup : ((List.range s.created).map (some : Nat → TimerTask)).Nodup :=
    List.Nodup.map (Option.some_injective Nat) List.nodup_range
  exact (List.nodup_append.mp (h.perm.nodup_iff.mpr hnodup)).1

theorem instances_executing {p : TimerPair} (hexec : s.executing = p :: executing) :
    s.instances.Perm (p :: (heap.pairs s.m_minHeap ++ (s.returned ++ executing))) := by
  rw [TimerManger.instances, hexec, ← List.append_assoc, ← List.append_assoc]
  exact List.perm_middle

theorem Books.ranTrue {id : Nat} (h : Books tr s) (hexec : s.executing = ⟨key, ⟨msec, some id⟩⟩ :: executing) :
    Books (tr ++ [.ranTrue (some id) clock]) { s with
      executing := executing
      m_minHeap := TimerManger.createTask s.m_minHeap msec (some id) clock } := by
  have hpush := heap.pairs_push s.m_minHeap (msec + clock) ⟨msec, some id⟩
  have hinstances := instances_executing hexec
  have hother : ∀ q ∈ heap.pairs s.m_minHeap, ∀ id', taskOf q = some id' → id ≠ id' := by
    rintro q hq _ hid' rfl
    have hnodup := (hinstances.map taskOf).nodup_iff.mp h.nodup
    exact (List.nodup_cons.mp hnodup).1 (List.mem_map.mpr ⟨q, List.mem_append_left _ hq, hid'⟩)
  refine ⟨?_, ?_, ?_, ?_, ?_⟩
  · rw [createdIds_append, h.ids]
    exact List.append_nil _
  · rw [endedTasks_append, show endedTasks [.ranTrue (some id) clock] = [] from rfl, List.append_nil]
    refine .trans (List.Perm.append_right _ ?_) h.perm
    exact ((hpush.append_right (s.returned ++ executing)).map taskOf).trans (hinstances.map taskOf).symm
  · intro q hq
    have hq' := (hpush.append_right (s.returned ++ executing)).mem_iff.mp hq
    simp only [intervals_append, show ∀ id', intervals id' [.ranTrue (some id) clock] = [] from fun _ => rfl,
      List.append_nil]
    rcases List.mem_cons.mp hq' with rfl | hq'
    · exact h.interval ⟨key, ⟨msec, some id⟩⟩ (hinstances.mem_iff.mpr (.head _))
    · exact h.interval q (hinstances.mem_iff.mpr (.tail _ hq'))
  · intro q hq id' hid'
    rw [queuedAt_append]
    rcases List.mem_cons.mp (hpush.mem_iff.mp hq) with rfl | hq'
    · cases hid'
      exact ⟨clock, by simp [queuedAt], rfl⟩
    · obtain ⟨clock', hclock, hkey⟩ := h.deadline q hq' id' hid'
      exact ⟨clock', by simp [queuedAt, hother q hq' id' hid', ← hclock], hkey⟩
  · intro t id' clock' heq
    obtain ⟨-, heq⟩ := List.append_inj' heq rfl
    cases heq
    exact ⟨_, hpush.mem_iff.mpr (.head _), rfl⟩

theorem Books.ranFalse (h : Books tr s) (hexec : s.executing = p :: executing) :
    Books (tr ++ [.ranFalse (taskOf p)]) { s with executing := executing } := by
  have hinstances := instances_executing hexec
  have hquiet : ∀ id, intervals id [.ranFalse (taskOf p)] = [] ∧ queuedAt id [.ranFalse (taskOf p)] = [] :=
    fun _ => ⟨rfl, rfl⟩
  refine ⟨?_, ?_, ?_, ?_, ?_⟩
  · rw [createdIds_append, h.ids]
    exact List.append_nil _
  · rw [endedTasks_append, ← List.append_assoc]
    refine (List.perm_append_singleton _ _).trans (.trans ?_ h.perm)
    exact ((hinstances.map taskOf).symm).append_right _
  · intro q hq
    obtain ⟨id, hid, hinterval⟩ := h.interval q (hinstances.mem_iff.mpr (.tail _ hq))
    refine ⟨id, hid, ?_⟩
    rw [intervals_append, (hquiet id).1, List.append_nil, hinterval]
  · intro q hq id hid
    obtain ⟨clock, hclock, hkey⟩ := h.deadline q hq id hid
    refine ⟨clock, ?_, hkey⟩
    rw [queuedAt_append, (hquiet id).2, List.append_nil, hclock]
  · intro t id clock heq
    obtain ⟨-, heq⟩ := List.append_inj' heq rfl
    cases heq

theorem timerManger_books (h : Books tr s) (hok : TasksOk heap s a)
    (hs : (timerManger heap).step s a = some (s', es)) : Books (tr ++ es) s' := by
  cases timerManger_step hs with
  | createdEmpty => cases hok
  | created => exact h.created
  | check hcheck =>
    have hperm := checkLoop_perm hcheck
    rw [List.append_nil] at hperm
    refine h.move trivial rfl ?_ fun p hp => hperm.mem_iff.mp (List.mem_append_left _ hp)
    rw [TimerManger.instances, TimerManger.instances, ← List.append_assoc, ← List.append_assoc,
      ← List.append_assoc]
    refine List.Perm.append_right _ (.trans ?_ (hperm.append_right _))
    rw [List.append_assoc, List.append_assoc]
    exact List.perm_append_comm.append_left _
  | threw hp htask =>
    have hmem := List.mem_append_left s.executing (List.mem_of_getElem? hp)
    obtain ⟨id, hid, -⟩ := h.interval _ (List.mem_append_right (heap.pairs s.m_minHeap) hmem)
    cases htask.symm.trans hid
  | began hp _ =>
    refine h.move trivial rfl ?_ fun _ hp => hp
    obtain ⟨hj, hget⟩ := List.getElem?_eq_some_iff.mp hp
    have hreturned := List.getElem_cons_eraseIdx_perm hj
    rw [hget] at hreturned
    refine List.Perm.append_left _ (List.perm_middle.trans ?_)
    exact hreturned.append_right s.executing
  | @ranTrue p executing clock hexec =>
    obtain ⟨id, hid, -⟩ := h.interval p ((instances_executing hexec).mem_iff.mpr (.head _))
    obtain ⟨key, msec, task⟩ := p
    obtain rfl : task = some id := hid
    exact h.ranTrue hexec
  | ranFalse hexec => exact h.ranFalse hexec
  | taskThrows _ => exact hok.elim

theorem count_map_some (ids : List Nat) (id : Nat) :
    (ids.map (some : Nat → TimerTask)).count (some id) = ids.count id :=
  List.count_map_of_injective ids some (fun _ _ => Option.some.inj) id

theorem Books.accounted (h : Books tr s) : Accounted tr s := by
  refine ⟨?_, h.interval, h.deadline, h.requeued⟩
  intro id
  have hcount := h.perm.count_eq (some id)
  rw [List.count_append, count_map_some] at hcount
  have hended : .ranFalse (some id) ∈ tr ↔ 0 < (endedTasks tr).count (some id) := by
    rw [List.count_pos_iff, endedTasks, List.mem_filterMap]
    constructor
    · intro hmem
      exact ⟨_, hmem, rfl⟩
    · rintro ⟨e, he, heq⟩
      cases e with
      | ranFalse task =>
        cases heq
        exact he
      | _ => cases heq
  simp only [h.ids, hended]
  by_cases hid : id ∈ List.range s.created
  · rw [List.count_eq_one_of_mem List.nodup_range hid] at hcount
    split
    · rename_i hlive
      omega
    · rename_i hdead
      have : 0 < (endedTasks tr).count (some id) := by
        by_contra hnone
        exact hdead ⟨hid, hnone⟩
      omega
  · rw [List.count_eq_zero_of_not_mem hid] at hcount
    rw [if_neg fun hlive => hid hlive.1]
    omega

end

/-- Over any heap, in every run in which no task is empty or throws, each task
created has one live instance until a run of it returns false, and none after;
one that returned true is queued again, with the interval it was created with,
for the clock read after it ran. -/
theorem timerManger_keeps_timers (heap : MinHeapTy (BitVec 64) Timer) (tr : List TimerEv)
    (s : TimerManger heap) (h : (timerManger heap).RunIf (TasksOk heap) tr s) : Accounted tr s := by
  refine (h.invariant (I := Books) ⟨rfl, ?_, ?_, ?_, ?_⟩ ?_).accounted
  · simp [timerManger, TimerManger.new, TimerManger.live, TimerManger.instances, heap.pairs_new, endedTasks]
  · simp [timerManger, TimerManger.new, TimerManger.instances, heap.pairs_new]
  · simp [timerManger, TimerManger.new, heap.pairs_new]
  · simp
  · intro tr s a s' es _ ih hok hs
    exact timerManger_books ih hok hs

instance (heap : MinHeapTy (BitVec 64) Timer) :
    (s : TimerManger heap) → (a : TimerAct) → Decidable (TasksOk heap s a)
  | _, .createTask _ empty _ => inferInstanceAs (Decidable (empty = false))
  | _, .taskThrows => .isFalse id
  | _, .check _ | _, .proxyExec _ | _, .taskReturns .. => .isTrue trivial

theorem timerManger_keeps_timers_run : ∃ tr s,
    (timerManger (binaryHeap (BitVec 64) Timer)).RunIf (TasksOk _) tr s ∧
    s.live = [some 2, some 1] ∧ .ranFalse (some 0) ∈ tr ∧ .ranTrue (some 1) 4 ∈ tr ∧ Accounted tr s := by
  have hr : (((timerManger (binaryHeap (BitVec 64) Timer)).only (TasksOk _)).replay (TimerManger.new _)
      [.createTask 5 false 0, .createTask 3 false 0, .check 4, .proxyExec 0, .createTask 1 false 4,
        .taskReturns true 4, .check 5, .proxyExec 0, .proxyExec 0, .taskReturns true 5,
        .taskReturns false 5]).isSome := rfl
  have hrun := Machine.steps_of_replay_only (Option.some_get hr).symm
  exact ⟨_, _, hrun, by decide, by decide, by decide, timerManger_keeps_timers _ _ _ hrun⟩

end Andren.Base
