import Andren.Base.MutexQue
import Mathlib.Data.List.ReduceOption

/-!
# The task distributor

`TaskDistributor` has a queue and a worker thread for each index. Any thread,
a worker inside a task included, adds tasks; a worker takes whole batches and
runs them. `start` and `shutdown` are steps of one controlling thread that
interleave with everything else.

`workerStep_pending` says what one step of a worker does to its batch and its
queue. With it a distributor that is started once refines one channel for each
index.
-/

namespace Andren.Network

open Machines Base

variable {Task : Type}

/-- `m_size = std::max(size, 1u)`. -/
def mSize (size : Nat) : Nat := max size 1

theorem mSize_pos (size : Nat) : 0 < mSize size := Nat.lt_of_lt_of_le Nat.one_pos (Nat.le_max_right size 1)

/-- The queue that `index` selects: an index out of range counts as the last. -/
def queueIndex (size index : Nat) : Fin (mSize size) :=
  if h : index < mSize size then ⟨index, h⟩ else ⟨mSize size - 1, Nat.sub_one_lt (Nat.ne_of_gt (mSize_pos size))⟩

theorem queueIndex_of_lt (h : index < mSize size) : queueIndex size index = ⟨index, h⟩ := dif_pos h

theorem queueIndex_val (h : index < size) : (queueIndex size index).val = index := by
  rw [queueIndex_of_lt (Nat.lt_of_lt_of_le h (Nat.le_max_left _ _))]

theorem queueIndex_zero (size : Nat) : (queueIndex size 0).val = 0 := by
  rw [queueIndex_of_lt (mSize_pos size)]

inductive TaskDistributorTaskType
  | shcedule
  | io
  | furture

/-- The index for a task type; `msec` is what the clock shows. -/
def typeIndex (size : Nat) (msec : Nat) : TaskDistributorTaskType → Nat
  | .io => 0
  | .shcedule => if mSize size > 1 then 1 else 0
  | .furture => if mSize size > 1 then msec % (mSize size - 1) else 0

-- ---------------------------------------------------------------------------
-- A worker
-- ---------------------------------------------------------------------------

/-- Where a worker's `startNextLoop` stands. A task is a `std::function`, which
may be empty: `none`. -/
inductive WorkerPc (Task : Type)
  | top
  | taking (pc : TakePc)
  | waiting
  | batch (rest : List (Option Task))
  /-- Inside `task`, which may be inside others that `addTask_ASAP` nests. -/
  | running (task : Task) (outer : List Task) (rest : List (Option Task))
  | returned

def workerStep (exit : Bool) (q : MutexQue (Option Task)) :
    WorkerPc Task → Option (MutexQue (Option Task) × WorkerPc Task × List Task)
  | .top => some (q, if exit then .returned else .taking .test, [])
  | .taking pc => do
    match ← q.takeStep .multi pc with
    | (q', .inl pc') => pure (q', .taking pc', [])
    | (q', .inr res) => pure (q', if res.isEmpty then .waiting else .batch res, [])
  | .waiting => some (q, .top, [])
  | .batch [] => some (q, .top, [])
  | .batch (none :: rest) => some (q, .batch rest, [])
  | .batch (some task :: rest) => some (q, .running task [] rest, [task])
  | .running _ (task :: outer) rest => some (q, .running task outer rest, [])
  | .running _ [] rest => some (q, .batch rest, [])
  | .returned => none

def WorkerPc.local : WorkerPc Task → List (Option Task)
  | .batch rest | .running _ _ rest => rest
  | _ => []

def pendingTasks (q : MutexQue (Option Task)) (pc : WorkerPc Task) : List Task :=
  (pc.local ++ q.contents).reduceOption

def WorkerTakeOk (q : MutexQue (Option Task)) : WorkerPc Task → Prop
  | .taking pc => TakeOk q pc
  | _ => True

theorem WorkerTakeOk.pushBack (h : WorkerTakeOk q pc) (t : Option Task) :
    WorkerTakeOk (q.pushBack t) pc := by
  cases pc with
  | taking pc => exact TakeOk.pushBack h t
  | _ => trivial

theorem pendingTasks_pushBack (q : MutexQue (Option Task)) (pc : WorkerPc Task) (t : Task) :
    pendingTasks (q.pushBack (some t)) pc = pendingTasks q pc ++ [t] := by
  simp [pendingTasks, List.reduceOption_append, List.reduceOption_singleton]

theorem workerStep_pending (hok : WorkerTakeOk q pc)
    (h : workerStep exit q pc = some (q', pc', ts)) :
    WorkerTakeOk q' pc' ∧ pendingTasks q pc = ts ++ pendingTasks q' pc' := by
  cases pc with
  | top =>
    cases h
    cases exit <;> exact ⟨trivial, rfl⟩
  | taking pc =>
    simp only [workerStep, Option.bind_eq_bind, Option.bind_eq_some_iff] at h
    obtain ⟨⟨q₁, next⟩, ht, h⟩ := h
    cases next with
    | inl pc₁ =>
      cases h
      obtain ⟨hok', heq⟩ := takeStep_inl hok ht
      exact ⟨hok', by simp [pendingTasks, WorkerPc.local, heq]⟩
    | inr res =>
      cases h
      have heq := takeStep_inr ht
      cases res with
      | nil => exact ⟨trivial, by simp [pendingTasks, WorkerPc.local, heq]⟩
      | cons t ts => exact ⟨trivial, by simp [pendingTasks, WorkerPc.local, heq]⟩
  | waiting =>
    cases h
    exact ⟨trivial, rfl⟩
  | batch rest =>
    rcases rest with - | ⟨_ | task, rest⟩ <;> cases h <;> exact ⟨trivial, rfl⟩
  | running task outer rest =>
    cases outer <;> cases h <;> exact ⟨trivial, rfl⟩
  | returned => cases h

-- ---------------------------------------------------------------------------
-- The distributor
-- ---------------------------------------------------------------------------

/-- A thread of `m_tpool`, running `startNextLoop(index)`. -/
structure Worker (size : Nat) (Task : Type) where
  index : Fin (mSize size)
  pc : WorkerPc Task

inductive ControlPc
  | idle
  | starting (i : Nat)
  | joining (i : Nat)

inductive Caller
  | external (k : Nat)
  | worker (thread : Nat)
  deriving DecidableEq

/-- `m_tpool[i]` is the number of a thread, or none when it is not joinable. -/
structure TaskDistributor (size : Nat) (Task : Type) where
  m_tpool : Option (Fin (mSize size) → Option Nat)
  m_bqueForTask : Fin (mSize size) → MutexQue (Option Task)
  m_exit : Bool
  threads : List (Worker size Task)
  control : ControlPc
  /-- The calls that are past their test and about to take a queue's mutex. -/
  calls : Caller → Option (Fin (mSize size) × Task)

inductive DistAct (Task : Type)
  | addTask (c : Caller) (task : Option Task) (index : Nat)
  | addTaskOf (c : Caller) (task : Option Task) (type : TaskDistributorTaskType) (msec : Nat)
  /-- `addTask_ASAP(task, index)`, up to the mutex or the task run in place. -/
  | addTaskASAP (c : Caller) (task : Option Task) (index : Nat)
  | pushBack (c : Caller)
  | worker (thread : Nat)
  | start
  | shutdown
  | control

inductive DistEv (size : Nat) (Task : Type)
  | refused (c : Caller)
  /-- The task is in the queue, and the call returns true. -/
  | accepted (c : Caller) (i : Fin (mSize size)) (task : Task)
  | executed (thread : Nat) (task : Task)
  /-- The thread began to run a task that `addTask_ASAP` did not queue. -/
  | inplace (thread : Nat) (task : Task)

namespace TaskDistributor

variable {size : Nat}

def new (size : Nat) (Task : Type) : TaskDistributor size Task where
  m_tpool := none
  m_bqueForTask := fun _ => .empty
  m_exit := false
  threads := []
  control := .idle
  calls := fun _ => none

/-- A thread calls when it is not inside a call, and a worker only from a task. -/
def canCall (s : TaskDistributor size Task) (c : Caller) : Bool :=
  (s.calls c).isNone && match c with
    | .external _ => true
    | .worker k => match s.threads[k]? with
      | some ⟨_, .running ..⟩ => true
      | _ => false

def addTask (s : TaskDistributor size Task) (c : Caller) (task : Option Task) (index : Nat) :
    TaskDistributor size Task × List (DistEv size Task) :=
  match s.m_tpool, task with
  | some _, some t => ({ s with calls := Function.update s.calls c (some (queueIndex size index, t)) }, [])
  | _, _ => (s, [.refused c])

/-- `addTask_ASAP` up to the mutex. `threadId(index)` is the caller's own only
for a worker that targets itself; that worker runs the task in place. -/
def addTaskASAP (s : TaskDistributor size Task) (c : Caller) (task : Option Task) (index : Nat) :
    TaskDistributor size Task × List (DistEv size Task) :=
  match s.m_tpool, task, c with
  | some tpool, some t, .worker k =>
    if tpool (queueIndex size index) = some k then
      match s.threads[k]? with
      | some ⟨i, .running task outer rest⟩ =>
        ({ s with threads := s.threads.set k ⟨i, .running t (task :: outer) rest⟩ }, [.inplace k t])
      | _ => (s, [])
    else s.addTask c task index
  | _, _, _ => s.addTask c task index

/-- One step of `start` or `shutdown`. A joined thread is not joinable again. -/
def controlStep (s : TaskDistributor size Task) : Option (TaskDistributor size Task) :=
  match s.control, s.m_tpool with
  | .idle, _ | .starting _, none => none
  | .starting i, some tpool =>
    if h : i < mSize size then
      some { s with
        threads := s.threads ++ [⟨⟨i, h⟩, .top⟩]
        m_tpool := some (Function.update tpool ⟨i, h⟩ (some s.threads.length))
        control := .starting (i + 1) }
    else some { s with control := .idle }
  | .joining _, none => some { s with control := .idle }
  | .joining i, some tpool =>
    if h : i < mSize size then
      match tpool ⟨i, h⟩ with
      | none => some { s with control := .joining (i + 1) }
      | some k => match s.threads[k]? with
        | some ⟨_, .returned⟩ => some { s with
            m_tpool := some (Function.update tpool ⟨i, h⟩ none)
            control := .joining (i + 1) }
        | _ => none
    else some { s with control := .idle }

end TaskDistributor

open TaskDistributor in
/-- A distributor, its worker threads and any number of threads that call it. -/
def taskDistributor (size : Nat) (Task : Type) :
    Machine (TaskDistributor size Task) (DistAct Task) (DistEv size Task) where
  init := new size Task
  step s
    | .addTask c task index => if s.canCall c then some (s.addTask c task index) else none
    | .addTaskOf c task type msec =>
      if s.canCall c then some (s.addTask c task (typeIndex size msec type)) else none
    | .addTaskASAP c task index => if s.canCall c then some (s.addTaskASAP c task index) else none
    | .pushBack c => do
      let (i, t) ← s.calls c
      pure ({ s with
        m_bqueForTask := Function.update s.m_bqueForTask i ((s.m_bqueForTask i).pushBack (some t))
        calls := Function.update s.calls c none }, [.accepted c i t])
    | .worker k => do
      let w ← s.threads[k]?
      if (s.calls (.worker k)).isSome then none
      else
        let (q, pc, ts) ← workerStep s.m_exit (s.m_bqueForTask w.index) w.pc
        pure ({ s with
          m_bqueForTask := Function.update s.m_bqueForTask w.index q
          threads := s.threads.set k ⟨w.index, pc⟩ }, ts.map (.executed k))
    | .start => match s.control with
      | .idle => some ({ s with
          m_exit := false
          m_tpool := some fun _ => none
          control := .starting 0 }, [])
      | _ => none
    | .shutdown => match s.control with
      | .idle => some ({ s with m_exit := true, control := .joining 0 }, [])
      | _ => none
    | .control => s.controlStep.map fun s' => (s', [])

/-- `start` is called on a distributor that was never started. -/
def StartOnce (s : TaskDistributor size Task) : DistAct Task → Prop
  | .start => s.m_tpool = none
  | _ => True

-- ---------------------------------------------------------------------------
-- What a step does
-- ---------------------------------------------------------------------------

section

variable {size : Nat}

inductive Asks (size : Nat) (c : Caller) (task : Option Task) : Nat → DistAct Task → Prop
  | addTask (index : Nat) : Asks size c task index (.addTask c task index)
  | addTaskOf (type : TaskDistributorTaskType) (msec : Nat) :
      Asks size c task (typeIndex size msec type) (.addTaskOf c task type msec)
  | addTaskASAP (index : Nat) : Asks size c task index (.addTaskASAP c task index)

inductive ControlMoves (s : TaskDistributor size Task) : TaskDistributor size Task → Prop
  | spawns {i tpool} (hctl : s.control = .starting i) (htpool : s.m_tpool = some tpool) (hi : i < mSize size) :
      ControlMoves s { s with
        threads := s.threads ++ [⟨⟨i, hi⟩, .top⟩]
        m_tpool := some (Function.update tpool ⟨i, hi⟩ (some s.threads.length))
        control := .starting (i + 1) }
  | skips (i : Nat) : ControlMoves s { s with control := .joining i }
  | joins {i tpool k} {w : Worker size Task} (htpool : s.m_tpool = some tpool) (hk : tpool i = some k)
      (hw : s.threads[k]? = some w) (hreturned : w.pc = .returned) (j : Nat) : ControlMoves s { s with
        m_tpool := some (Function.update tpool i none)
        control := .joining j }
  | ends : ControlMoves s { s with control := .idle }

/-- `hother`: `addTask_ASAP` queues a task only for another worker than its caller. -/
inductive DistMoves (s : TaskDistributor size Task) :
    DistAct Task → TaskDistributor size Task → List (DistEv size Task) → Prop
  | refuses {c a task index} (hasks : Asks size c task index a) : DistMoves s a s [.refused c]
  | begins {c a index tpool} {t : Task} (hasks : Asks size c (some t) index a) (htpool : s.m_tpool = some tpool)
      (hcan : s.canCall c = true)
      (hother : ∀ k, a = .addTaskASAP (.worker k) (some t) index → tpool (queueIndex size index) ≠ some k) :
      DistMoves s a { s with calls := Function.update s.calls c (some (queueIndex size index, t)) } []
  | nests {k tpool task outer rest i} (t : Task) (index : Nat) (htpool : s.m_tpool = some tpool)
      (hk : tpool (queueIndex size index) = some k) (hw : s.threads[k]? = some ⟨i, .running task outer rest⟩) :
      DistMoves s (.addTaskASAP (.worker k) (some t) index)
        { s with threads := s.threads.set k ⟨i, .running t (task :: outer) rest⟩ } [.inplace k t]
  | pushBack {c i t} (hcall : s.calls c = some (i, t)) : DistMoves s (.pushBack c) { s with
        m_bqueForTask := Function.update s.m_bqueForTask i ((s.m_bqueForTask i).pushBack (some t))
        calls := Function.update s.calls c none } [.accepted c i t]
  | worker {k} {w : Worker size Task} {q pc ts} (hw : s.threads[k]? = some w)
      (hstep : workerStep s.m_exit (s.m_bqueForTask w.index) w.pc = some (q, pc, ts)) :
      DistMoves s (.worker k) { s with
        m_bqueForTask := Function.update s.m_bqueForTask w.index q
        threads := s.threads.set k ⟨w.index, pc⟩ } (ts.map (.executed k))
  | start : DistMoves s .start { s with
        m_exit := false
        m_tpool := some fun _ => none
        control := .starting 0 } []
  | shutdown : DistMoves s .shutdown { s with m_exit := true, control := .joining 0 } []
  | control {s'} (hs : ControlMoves s s') : DistMoves s .control s' []

theorem controlStep_moves {s : TaskDistributor size Task} (hs : s.controlStep = some s') : ControlMoves s s' := by
  unfold TaskDistributor.controlStep at hs
  split at hs
  · cases hs
  · cases hs
  · rename_i hctl htpool
    split at hs
    · rename_i hi
      cases hs
      exact .spawns hctl htpool hi
    · cases hs
      exact .ends
  · cases hs
    exact .ends
  · rename_i htpool
    split at hs
    · split at hs
      · cases hs
        exact .skips _
      · rename_i hk
        split at hs
        · rename_i hw
          cases hs
          exact .joins htpool hk hw rfl _
        · cases hs
    · cases hs
      exact .ends

theorem addTask_moves {s : TaskDistributor size Task} {index : Nat} (hasks : Asks size c task index a)
    (hcan : s.canCall c = true)
    (hother : ∀ k t tpool, s.m_tpool = some tpool → a = .addTaskASAP (.worker k) (some t) index →
      tpool (queueIndex size index) ≠ some k)
    (hs : s.addTask c task index = (s', es)) : DistMoves s a s' es := by
  unfold TaskDistributor.addTask at hs
  split at hs
  · rename_i tpool t htpool
    cases hs
    exact .begins hasks htpool hcan fun k => hother k t tpool htpool
  · cases hs
    exact .refuses hasks

theorem taskDistributor_moves {s s' : TaskDistributor size Task}
    (hs : (taskDistributor size Task).step s a = some (s', es)) : DistMoves s a s' es := by
  cases a with
  | addTask c task index =>
    obtain ⟨hcan, hs⟩ := Option.ite_none_right_eq_some.mp hs
    exact addTask_moves (.addTask index) hcan nofun (Option.some.inj hs)
  | addTaskOf c task type msec =>
    obtain ⟨hcan, hs⟩ := Option.ite_none_right_eq_some.mp hs
    exact addTask_moves (.addTaskOf type msec) hcan nofun (Option.some.inj hs)
  | addTaskASAP c task index =>
    obtain ⟨hcan, hs⟩ := Option.ite_none_right_eq_some.mp hs
    replace hs := Option.some.inj hs
    unfold TaskDistributor.addTaskASAP at hs
    split at hs
    · rename_i tpool t k htpool _
      split at hs
      · rename_i hk
        split at hs
        · rename_i hw
          cases hs
          exact .nests t index htpool hk hw
        · rename_i hidle
          -- a worker calls only from a task
          obtain ⟨-, hrunning⟩ := Bool.and_eq_true_iff.mp hcan
          dsimp only at hrunning
          split at hrunning
          · rename_i hw
            exact absurd hw (hidle _ _ _ _)
          · cases hrunning
      · rename_i hk
        refine addTask_moves (.addTaskASAP index) hcan ?_ hs
        rintro _ _ _ htpool' ⟨⟩
        rw [htpool] at htpool'
        cases htpool'
        exact hk
    · rename_i hno _
      refine addTask_moves (.addTaskASAP index) hcan ?_ hs
      rintro k t tpool htpool ⟨⟩
      exact (hno tpool t k htpool rfl rfl).elim
  | pushBack c =>
    obtain ⟨_, hcall, hs⟩ := Option.bind_eq_some_iff.mp hs
    cases hs
    exact .pushBack hcall
  | worker k =>
    obtain ⟨w, hw, hs⟩ := Option.bind_eq_some_iff.mp hs
    obtain ⟨-, hs⟩ := Option.ite_none_left_eq_some.mp hs
    obtain ⟨_, hstep, hs⟩ := Option.bind_eq_some_iff.mp hs
    cases hs
    exact .worker hw hstep
  | start =>
    simp only [taskDistributor] at hs
    split at hs <;> cases hs
    exact .start
  | shutdown =>
    simp only [taskDistributor] at hs
    split at hs <;> cases hs
    exact .shutdown
  | control =>
    obtain ⟨_, hctl, hs⟩ := Option.map_eq_some_iff.mp hs
    cases hs
    exact .control (controlStep_moves hctl)

end

-- ---------------------------------------------------------------------------
-- One channel for each index
-- ---------------------------------------------------------------------------

section

variable {size : Nat}

def pcOf (threads : List (Worker size Task)) (k : Nat) : WorkerPc Task :=
  match threads[k]? with
  | some w => w.pc
  | none => .top

theorem pcOf_eq {threads : List (Worker size Task)} (h : threads[k]? = some w) :
    pcOf threads k = w.pc := by
  simp [pcOf, h]

theorem pcOf_append (threads : List (Worker size Task)) (i : Fin (mSize size)) :
    pcOf (threads ++ [⟨i, .top⟩]) = pcOf threads := by
  funext k
  rcases Nat.lt_trichotomy k threads.length with hk | rfl | hk
  · simp [pcOf, List.getElem?_append_left hk]
  · simp [pcOf]
  · have hout : (threads ++ [⟨i, .top⟩])[k]? = none := by
      rw [List.getElem?_eq_none_iff, List.length_append]
      exact hk
    rw [pcOf, pcOf, hout, List.getElem?_eq_none (Nat.le_of_lt hk)]

theorem pcOf_set {threads : List (Worker size Task)} (h : threads[k]? = some w)
    (w' : Worker size Task) : pcOf (threads.set k w') = Function.update (pcOf threads) k w'.pc := by
  obtain ⟨hk, -⟩ := List.getElem?_eq_some_iff.mp h
  funext j
  rcases eq_or_ne j k with rfl | hne
  · simp [pcOf, hk]
  · simp [pcOf, List.getElem?_set_ne hne.symm, Function.update_of_ne hne]

def TaskDistributor.waiting (s : TaskDistributor size Task) (i : Fin (mSize size)) : List Task :=
  pendingTasks (s.m_bqueForTask i) (pcOf s.threads i)

structure DistOk (s : TaskDistributor size Task) : Prop where
  notStarted : s.m_tpool = none → s.threads = []
  starting : ∀ i, s.control = .starting i → s.threads.length = i
  index : ∀ (k : Nat) (w : Worker size Task), s.threads[k]? = some w → w.index.val = k
  take : ∀ i : Fin (mSize size), WorkerTakeOk (s.m_bqueForTask i) (pcOf s.threads i)

def DistEv.obs : DistEv size Task → List (ChanEv (Fin (mSize size)) Task)
  | .refused _ | .inplace .. => []
  | .accepted _ i t => [.put i t]
  | .executed k t => if h : k < mSize size then [.got ⟨k, h⟩ t] else []

theorem executed_obs (i : Fin (mSize size)) (ts : List Task) :
    (ts.map (DistEv.executed i.val)).flatMap DistEv.obs = ts.map (.got i) := by
  induction ts with
  | nil => rfl
  | cons t ts ih => simp [DistEv.obs, ih]

def Follows (s : TaskDistributor size Task) (es : List (DistEv size Task))
    (s' : TaskDistributor size Task) : Prop :=
  DistOk s' ∧ (channels (Fin (mSize size)) Task).Steps Machine.anyStep s.waiting
    (es.flatMap DistEv.obs) s'.waiting

theorem DistOk.setWorker {s : TaskDistributor size Task} (h : DistOk s) (hw : s.threads[k]? = some w)
    (htake : WorkerTakeOk q pc)
    (hpending : pendingTasks (s.m_bqueForTask w.index) w.pc = ts ++ pendingTasks q pc) :
    Follows s (ts.map (.executed k)) { s with
      m_bqueForTask := Function.update s.m_bqueForTask w.index q
      threads := s.threads.set k ⟨w.index, pc⟩ } := by
  have hk : w.index.val = k := h.index k w hw
  have hpc : ∀ i : Fin (mSize size), pcOf (s.threads.set k ⟨w.index, pc⟩) i =
      Function.update (fun i : Fin (mSize size) => pcOf s.threads i) w.index pc i := by
    intro i
    rw [pcOf_set hw]
    simp only [Function.update_apply, ← hk, Fin.ext_iff]
  refine ⟨⟨?_, ?_, ?_, ?_⟩, ?_⟩
  · intro hnone
    rw [h.notStarted hnone] at hw
    cases hw
  · intro i hi
    rw [List.length_set]
    exact h.starting i hi
  · intro j w' hj
    dsimp only at hj
    rcases eq_or_ne k j with rfl | hne
    · rw [List.getElem?_set_self', hw] at hj
      cases hj
      exact hk
    · rw [List.getElem?_set_ne hne] at hj
      exact h.index j w' hj
  · intro i
    rw [hpc]
    rcases eq_or_ne i w.index with rfl | hne
    · simpa only [Function.update_self] using htake
    · simpa only [Function.update_of_ne hne] using h.take i
  · have hwaiting : s.waiting w.index = ts ++ pendingTasks q pc := by
      rw [← hpending, ← pcOf_eq hw, ← hk]
      rfl
    have hobs := executed_obs w.index ts
    rw [hk] at hobs
    rw [hobs]
    convert channels_gets hwaiting using 1
    funext i
    simp only [TaskDistributor.waiting, hpc, Function.update_apply]
    split <;> rfl

theorem DistOk.pushBack {s : TaskDistributor size Task} (h : DistOk s) (c c' : Caller)
    (i : Fin (mSize size)) (t : Task) :
    Follows s [.accepted c i t] { s with
      m_bqueForTask := Function.update s.m_bqueForTask i ((s.m_bqueForTask i).pushBack (some t))
      calls := Function.update s.calls c' none } := by
  refine ⟨⟨h.notStarted, h.starting, h.index, ?_⟩, ?_⟩
  · intro j
    rcases eq_or_ne j i with rfl | hne
    · simpa only [Function.update_self] using (h.take j).pushBack (some t)
    · simpa only [Function.update_of_ne hne] using h.take j
  · rw [show [DistEv.accepted c i t].flatMap DistEv.obs = [.put i t] from rfl]
    convert channels_put s.waiting i t using 1
    funext j
    simp only [TaskDistributor.waiting, Function.update_apply]
    split
    · rename_i hj
      rw [hj, pendingTasks_pushBack]
    · rfl

theorem DistOk.spawn {s : TaskDistributor size Task} (h : DistOk s) (hi : i < mSize size)
    (hctl : s.control = .starting i) (tpool : Fin (mSize size) → Option Nat) :
    Follows s [] { s with
      threads := s.threads ++ [⟨⟨i, hi⟩, .top⟩]
      m_tpool := some tpool
      control := .starting (i + 1) } := by
  have hlen := h.starting i hctl
  refine ⟨⟨nofun, ?_, ?_, ?_⟩, ?_⟩
  · intro j hj
    cases hj
    simp [hlen]
  · intro k w hk
    dsimp only at hk
    rw [List.getElem?_append] at hk
    split at hk
    · exact h.index k w hk
    · rw [List.getElem?_singleton] at hk
      split at hk
      · cases hk
        change i = k
        omega
      · cases hk
  · intro j
    rw [pcOf_append]
    exact h.take j
  · unfold TaskDistributor.waiting
    simp only [pcOf_append]
    exact .refl

theorem DistOk.control {s s' : TaskDistributor size Task} (h : DistOk s) (hs : ControlMoves s s') :
    Follows s [] s' := by
  cases hs with
  | spawns hctl htpool hi => exact h.spawn hi hctl _
  | skips | ends => exact ⟨⟨h.notStarted, nofun, h.index, h.take⟩, .refl⟩
  | joins => exact ⟨⟨nofun, nofun, h.index, h.take⟩, .refl⟩

theorem taskDistributor_step {s s' : TaskDistributor size Task} (h : DistOk s) (hok : StartOnce s a)
    (hs : (taskDistributor size Task).step s a = some (s', es)) : Follows s es s' := by
  cases taskDistributor_moves hs with
  | refuses => exact ⟨h, .refl⟩
  | begins => exact ⟨⟨h.notStarted, h.starting, h.index, h.take⟩, .refl⟩
  | @nests k tpool task outer rest i t index htpool hk hw =>
    have hnest : Follows s ([].map (.executed k)) { s with
        m_bqueForTask := Function.update s.m_bqueForTask i (s.m_bqueForTask i)
        threads := s.threads.set k ⟨i, .running t (task :: outer) rest⟩ } := h.setWorker hw trivial rfl
    rw [Function.update_eq_self] at hnest
    exact hnest
  | pushBack => exact h.pushBack _ _ _ _
  | @worker k w q pc ts hw hstep =>
    have htake : WorkerTakeOk (s.m_bqueForTask w.index) w.pc := by
      rw [← pcOf_eq hw, ← h.index k w hw]
      exact h.take w.index
    obtain ⟨htake', hpending⟩ := workerStep_pending htake hstep
    exact h.setWorker hw htake' hpending
  | start =>
    refine ⟨⟨fun _ => h.notStarted hok, ?_, h.index, h.take⟩, .refl⟩
    rintro i ⟨⟩
    simp [h.notStarted hok]
  | shutdown => exact ⟨⟨h.notStarted, nofun, h.index, h.take⟩, .refl⟩
  | control hctl => exact h.control hctl

theorem distOk_new (size : Nat) (Task : Type) : DistOk (TaskDistributor.new size Task) :=
  ⟨fun _ => rfl, nofun, nofun, fun _ => trivial⟩

def taskDistributor_refines (size : Nat) (Task : Type) :
    Refinement (taskDistributor size Task) (channels (Fin (mSize size)) Task) StartOnce where
  obs := DistEv.obs
  abs := TaskDistributor.waiting
  inv := DistOk
  init_inv := distOk_new size Task
  init_abs := rfl
  step_inv h hok hs := (taskDistributor_step h hok hs).1
  step_abs h hok hs := (taskDistributor_step h hok hs).2

end

-- ---------------------------------------------------------------------------
-- Workers that call
-- ---------------------------------------------------------------------------

section

variable {size : Nat}

/-- `m_tpool[i]` is worker `i` as long as that runs. -/
structure PoolOk (s : TaskDistributor size Task) : Prop where
  own : ∀ tpool i k, s.m_tpool = some tpool → tpool i = some k → k = i.val
  live : ∀ tpool (k : Nat) (w : Worker size Task), s.m_tpool = some tpool → s.threads[k]? = some w →
    w.pc ≠ .returned → tpool w.index = some k

theorem PoolOk.same {s s' : TaskDistributor size Task} (h : PoolOk s) (htpool : s'.m_tpool = s.m_tpool)
    (hthreads : s'.threads = s.threads) : PoolOk s' := by
  refine ⟨?_, ?_⟩
  · rw [htpool]
    exact h.own
  · rw [htpool, hthreads]
    exact h.live

theorem PoolOk.setWorker {s s' : TaskDistributor size Task} (h : PoolOk s)
    (hw : s.threads[k]? = some w) (hpc : w.pc ≠ .returned) (htpool : s'.m_tpool = s.m_tpool)
    (hthreads : s'.threads = s.threads.set k ⟨w.index, pc⟩) : PoolOk s' := by
  refine ⟨?_, ?_⟩
  · rw [htpool]
    exact h.own
  · intro tpool j w' hpool hj hpc'
    rw [htpool] at hpool
    rw [hthreads] at hj
    rcases eq_or_ne k j with rfl | hne
    · rw [List.getElem?_set_self', hw] at hj
      cases hj
      exact h.live tpool k w hpool hw hpc
    · rw [List.getElem?_set_ne hne] at hj
      exact h.live tpool j w' hpool hj hpc'

theorem PoolOk.control {s s' : TaskDistributor size Task} (hdist : DistOk s) (h : PoolOk s)
    (hs : ControlMoves s s') : PoolOk s' := by
  cases hs with
  | @spawns i tpool hctl htpool hi =>
    have hlen := hdist.starting i hctl
    refine ⟨?_, ?_⟩
    · rintro _ j k ⟨⟩ hk
      rw [Function.update_apply] at hk
      split at hk
      · rename_i hj
        cases hk
        rw [hj, hlen]
      · exact h.own tpool j k htpool hk
    · rintro _ k w ⟨⟩ hk hpc
      dsimp only at hk
      rw [List.getElem?_append] at hk
      split at hk
      · rename_i hlt
        have hindex := hdist.index k w hk
        rw [Function.update_of_ne]
        · exact h.live tpool k w htpool hk hpc
        · intro heq
          rw [heq] at hindex
          exact Nat.ne_of_lt hlt (hindex.symm.trans hlen.symm)
      · rw [List.getElem?_singleton] at hk
        split at hk
        · rename_i hge hsub
          cases hk
          rw [Function.update_self, Option.some.injEq]
          omega
        · cases hk
  | skips | ends => exact h.same rfl rfl
  | @joins i tpool k w htpool hk hw hreturned =>
    refine ⟨?_, ?_⟩
    · rintro _ j k' ⟨⟩ hj
      rw [Function.update_apply] at hj
      split at hj
      · cases hj
      · exact h.own tpool j k' htpool hj
    · rintro _ k' w' ⟨⟩ hk' hpc
      rw [Function.update_of_ne]
      · exact h.live tpool k' w' htpool hk' hpc
      · intro heq
        have hlive := h.live tpool k' w' htpool hk' hpc
        rw [heq, hk] at hlive
        cases hlive
        dsimp only at hk'
        rw [hw] at hk'
        cases hk'
        exact hpc hreturned

theorem poolOk_step {s s' : TaskDistributor size Task} (hdist : DistOk s) (h : PoolOk s)
    (hok : StartOnce s a) (hs : (taskDistributor size Task).step s a = some (s', es)) : PoolOk s' := by
  cases taskDistributor_moves hs with
  | refuses => exact h
  | begins | pushBack | shutdown => exact h.same rfl rfl
  | nests t index htpool hk hw => exact h.setWorker hw nofun rfl rfl
  | worker hw hstep =>
    refine h.setWorker hw (fun hpc => ?_) rfl rfl
    rw [hpc] at hstep
    cases hstep
  | start =>
    refine ⟨?_, ?_⟩
    · rintro _ i k ⟨⟩ ⟨⟩
    · rintro _ k w ⟨⟩ hk
      rw [hdist.notStarted hok] at hk
      cases hk
  | control hctl => exact h.control hdist hctl

theorem workerStep_one (h : workerStep exit q pc = some (q', pc', ts)) : ts = [] ∨ ∃ t, ts = [t] := by
  cases pc with
  | taking pc =>
    simp only [workerStep, Option.bind_eq_bind, Option.bind_eq_some_iff] at h
    obtain ⟨⟨q₁, next⟩, -, h⟩ := h
    cases next <;> cases h <;> exact .inl rfl
  | batch rest =>
    rcases rest with - | ⟨_ | task, rest⟩ <;> cases h
    · exact .inl rfl
    · exact .inl rfl
    · exact .inr ⟨task, rfl⟩
  | running task outer rest => cases outer <;> cases h <;> exact .inl rfl
  | top | waiting =>
    cases h
    exact .inl rfl
  | returned => cases h

inductive Shown (s : TaskDistributor size Task) (a : DistAct Task) : List (DistEv size Task) → Prop
  | nothing : Shown s a []
  | refused (c : Caller) : Shown s a [.refused c]
  | accepted : s.calls c = some (i, t) → Shown s a [.accepted c i t]
  | executed : k < mSize size → Shown s a [.executed k t]
  | inplace : a = .addTaskASAP (.worker k) (some t) index → s.m_tpool = some tpool →
      tpool (queueIndex size index) = some k → Shown s a [.inplace k t]

theorem taskDistributor_shown {s s' : TaskDistributor size Task} (h : DistOk s)
    (hs : (taskDistributor size Task).step s a = some (s', es)) : Shown s a es := by
  cases taskDistributor_moves hs with
  | refuses => exact .refused _
  | begins | start | shutdown | control => exact .nothing
  | nests t index htpool hk => exact .inplace rfl htpool hk
  | pushBack hcall => exact .accepted hcall
  | @worker k w q pc ts hw hstep =>
    rcases workerStep_one hstep with rfl | ⟨t, rfl⟩
    · exact .nothing
    · exact .executed (h.index k w hw ▸ w.index.isLt)

inductive Begins (c : Caller) (i : Fin (mSize size)) (t : Task) : DistAct Task → Prop
  | addTask : i = queueIndex size index → Begins c i t (.addTask c (some t) index)
  | addTaskOf : i = queueIndex size (typeIndex size msec type) →
      Begins c i t (.addTaskOf c (some t) type msec)
  | addTaskASAP : i = queueIndex size index → (∀ k, c = .worker k → k ≠ i.val) →
      Begins c i t (.addTaskASAP c (some t) index)

/-- A worker that may call runs a task, and is still in `m_tpool`. -/
theorem PoolOk.canCall {s : TaskDistributor size Task} (hdist : DistOk s) (h : PoolOk s)
    (hpool : s.m_tpool = some tpool) (hcall : s.canCall (.worker k) = true) (hi : k = i.val) :
    tpool i = some k := by
  unfold TaskDistributor.canCall at hcall
  obtain ⟨-, hrunning⟩ := Bool.and_eq_true_iff.mp hcall
  dsimp only at hrunning
  split at hrunning
  · rename_i index task outer rest hw
    have hlive := h.live tpool k _ hpool hw nofun
    have hindex : index = i := Fin.ext ((hdist.index k _ hw).trans hi)
    rwa [hindex] at hlive
  · cases hrunning

theorem Asks.begins {s : TaskDistributor size Task} {index : Nat} (hdist : DistOk s) (h : PoolOk s)
    (hasks : Asks size c (some t) index a) (htpool : s.m_tpool = some tpool) (hcan : s.canCall c = true)
    (hother : ∀ k, a = .addTaskASAP (.worker k) (some t) index → tpool (queueIndex size index) ≠ some k) :
    Begins c (queueIndex size index) t a := by
  cases hasks with
  | addTask => exact .addTask rfl
  | addTaskOf => exact .addTaskOf rfl
  | addTaskASAP =>
    refine .addTaskASAP rfl ?_
    rintro k rfl hk
    exact hother k rfl (h.canCall hdist htpool hcan hk)

theorem calls_step {s s' : TaskDistributor size Task} (hdist : DistOk s) (h : PoolOk s)
    (hs : (taskDistributor size Task).step s a = some (s', es)) (hcall : s'.calls c = some (i, t)) :
    s.calls c = some (i, t) ∨ Begins c i t a := by
  cases taskDistributor_moves hs with
  | refuses | nests | worker | start | shutdown => exact .inl hcall
  | begins hasks htpool hcan hother =>
    dsimp only at hcall
    rw [Function.update_apply] at hcall
    split at hcall
    · rename_i hc
      cases hcall
      exact .inr (hc ▸ hasks.begins hdist h htpool hcan hother)
    · exact .inl hcall
  | pushBack =>
    dsimp only at hcall
    rw [Function.update_apply] at hcall
    split at hcall
    · cases hcall
    · exact .inl hcall
  | control hctl =>
    left
    cases hctl <;> exact hcall

end

-- ---------------------------------------------------------------------------
-- The tasks a worker is inside of
-- ---------------------------------------------------------------------------

section

variable {size : Nat}

def WorkerPc.frames : WorkerPc Task → List Task
  | .running task outer _ => task :: outer
  | _ => []

def TaskDistributor.frames (s : TaskDistributor size Task) (k : Nat) : List Task :=
  (pcOf s.threads k).frames

inductive FrameStep (s : TaskDistributor size Task) (a : DistAct Task) :
    List (DistEv size Task) → (Nat → List Task) → Prop
  | executed : a = .worker k → s.frames k = [] →
      FrameStep s a [.executed k t] (Function.update s.frames k [t])
  | returned : a = .worker k → FrameStep s a [] (Function.update s.frames k (s.frames k).tail)
  | inplace : a = .addTaskASAP (.worker k) (some t) index →
      FrameStep s a [.inplace k t] (Function.update s.frames k (t :: s.frames k))
  | nothing : (∀ k, a ≠ .worker k) → FrameStep s a [] s.frames
  | refused (c : Caller) : (∀ k, a ≠ .worker k) → FrameStep s a [.refused c] s.frames
  | accepted : (∀ k, a ≠ .worker k) → s.calls c = some (i, t) → FrameStep s a [.accepted c i t] s.frames

theorem frames_set {s s' : TaskDistributor size Task} (hw : s.threads[k]? = some w)
    (hthreads : s'.threads = s.threads.set k ⟨w.index, pc⟩) :
    s'.frames = Function.update s.frames k pc.frames := by
  funext j
  rw [TaskDistributor.frames, hthreads, pcOf_set hw]
  rcases eq_or_ne j k with rfl | hne
  · simp
  · simp [Function.update_of_ne hne, TaskDistributor.frames]

theorem frames_same {s s' : TaskDistributor size Task} (hthreads : s'.threads = s.threads) :
    s'.frames = s.frames := by
  funext k
  rw [TaskDistributor.frames, hthreads, TaskDistributor.frames]

theorem workerStep_frames (h : workerStep exit q pc = some (q', pc', ts)) :
    (ts = [] ∧ pc'.frames = pc.frames.tail) ∨ ∃ t, ts = [t] ∧ pc.frames = [] ∧ pc'.frames = [t] := by
  cases pc with
  | top =>
    cases h
    cases exit <;> exact .inl ⟨rfl, rfl⟩
  | taking pc =>
    simp only [workerStep, Option.bind_eq_bind, Option.bind_eq_some_iff] at h
    obtain ⟨⟨q₁, next⟩, -, h⟩ := h
    cases next with
    | inl pc₁ =>
      cases h
      exact .inl ⟨rfl, rfl⟩
    | inr res =>
      cases h
      cases res <;> exact .inl ⟨rfl, rfl⟩
  | waiting =>
    cases h
    exact .inl ⟨rfl, rfl⟩
  | batch rest =>
    rcases rest with - | ⟨_ | task, rest⟩ <;> cases h
    · exact .inl ⟨rfl, rfl⟩
    · exact .inl ⟨rfl, rfl⟩
    · exact .inr ⟨task, rfl, rfl, rfl⟩
  | running task outer rest => cases outer <;> cases h <;> exact .inl ⟨rfl, rfl⟩
  | returned => cases h

theorem frames_control {s s' : TaskDistributor size Task} (hs : ControlMoves s s') : s'.frames = s.frames := by
  cases hs with
  | spawns =>
    funext k
    simp only [TaskDistributor.frames, pcOf_append]
  | skips | joins | ends => rfl

theorem Asks.ne_worker (h : Asks size c task index a) (k : Nat) : a ≠ .worker k := by
  cases h <;> nofun

theorem taskDistributor_frames {s s' : TaskDistributor size Task}
    (hs : (taskDistributor size Task).step s a = some (s', es)) : FrameStep s a es s'.frames := by
  cases taskDistributor_moves hs with
  | refuses hasks => exact .refused _ hasks.ne_worker
  | begins hasks => exact .nothing hasks.ne_worker
  | @nests k tpool task outer rest i t index htpool hk hw =>
    have hframes : s.frames k = task :: outer := by
      rw [TaskDistributor.frames, pcOf_eq hw]
      rfl
    rw [frames_set hw rfl, WorkerPc.frames, ← hframes]
    exact .inplace rfl
  | pushBack hcall => exact .accepted nofun hcall
  | @worker k w q pc ts hw hstep =>
    have hframes : s.frames k = w.pc.frames := by rw [TaskDistributor.frames, pcOf_eq hw]
    rw [frames_set hw rfl]
    rcases workerStep_frames hstep with ⟨rfl, htail⟩ | ⟨t, rfl, hnil, hone⟩
    · rw [htail, ← hframes]
      exact .returned rfl
    · rw [hone]
      exact .executed rfl (hframes.trans hnil)
  | start | shutdown => exact .nothing nofun
  | control hctl =>
    rw [frames_control hctl]
    exact .nothing nofun

theorem pushBack_of_accepted {s s' : TaskDistributor size Task}
    (hs : (taskDistributor size Task).step s a = some (s', [.accepted c i t])) : a = .pushBack c := by
  generalize hes : [DistEv.accepted c i t] = es at hs
  cases taskDistributor_moves hs with
  | refuses | begins | nests | start | shutdown | control => cases hes
  | pushBack =>
    cases hes
    rfl
  | @worker k w q pc ts => cases ts <;> cases hes

theorem calls_pushBack {s s' : TaskDistributor size Task}
    (hs : (taskDistributor size Task).step s (.pushBack c) = some (s', es)) : ∃ i t,
      s.calls c = some (i, t) ∧ s'.calls = Function.update s.calls c none ∧ s'.frames = s.frames ∧
      es = [.accepted c i t] := by
  cases taskDistributor_moves hs with
  | pushBack hcall => exact ⟨_, _, hcall, rfl, frames_same rfl, rfl⟩
  | refuses hasks | begins hasks => cases hasks

end

-- ---------------------------------------------------------------------------
-- Order and uniqueness
-- ---------------------------------------------------------------------------

def accepted {size : Nat} (i : Fin (mSize size)) : List (DistEv size Task) → List Task
  | [] => []
  | .accepted _ j t :: tr => if j = i then t :: accepted i tr else accepted i tr
  | _ :: tr => accepted i tr

def executed {size : Nat} (k : Nat) : List (DistEv size Task) → List Task
  | [] => []
  | .executed j t :: tr => if j = k then t :: executed k tr else executed k tr
  | _ :: tr => executed k tr

theorem puts_distObs {size : Nat} (i : Fin (mSize size)) (tr : List (DistEv size Task)) :
    puts i (tr.flatMap DistEv.obs) = accepted i tr := by
  induction tr with
  | nil => rfl
  | cons e tr ih =>
    rw [List.flatMap_cons, puts_append, ih]
    cases e with
    | accepted c j t =>
      simp only [DistEv.obs, puts, accepted]
      split <;> rfl
    | executed k t =>
      simp only [DistEv.obs, accepted]
      split <;> rfl
    | _ => rfl

theorem gots_distObs {size : Nat} (i : Fin (mSize size)) (tr : List (DistEv size Task)) :
    gots i (tr.flatMap DistEv.obs) = executed i.val tr := by
  induction tr with
  | nil => rfl
  | cons e tr ih =>
    rw [List.flatMap_cons, gots_append, ih]
    cases e with
    | executed k t =>
      simp only [DistEv.obs, executed]
      split
      · simp only [gots, Fin.ext_iff]
        split <;> rfl
      · have hne : k ≠ i.val := by omega
        simp [gots, hne]
    | _ => rfl

theorem waiting_step {s s' : TaskDistributor size Task} (h : DistOk s) (hok : StartOnce s a)
    (hs : (taskDistributor size Task).step s a = some (s', es)) (i : Fin (mSize size)) :
    s.waiting i ++ accepted i es = executed i.val es ++ s'.waiting i := by
  have hconserve := channels_conserve (taskDistributor_step h hok hs).2 i
  rwa [puts_distObs, gots_distObs] at hconserve

theorem executed_waited {s s' : TaskDistributor size Task} (h : DistOk s) (hok : StartOnce s a)
    (hs : (taskDistributor size Task).step s a = some (s', [.executed k t])) (hk : k < mSize size) :
    t ∈ s.waiting ⟨k, hk⟩ := by
  have hfirst := waiting_step h hok hs ⟨k, hk⟩
  simp only [accepted, executed, List.append_nil, if_pos] at hfirst
  rw [hfirst]
  exact .head _

theorem executed_thread {s s' : TaskDistributor size Task} (h : DistOk s)
    (hs : (taskDistributor size Task).step s a = some (s', es)) (k : Nat) (hk : mSize size ≤ k) :
    executed k es = [] := by
  cases taskDistributor_shown h hs with
  | nothing | refused | accepted | inplace => rfl
  | executed hlt =>
    rw [executed, if_neg (Nat.ne_of_lt (Nat.lt_of_lt_of_le hlt hk))]
    rfl

theorem accepted_eq (h : (taskDistributor size Task).RunIf StartOnce tr s) (i : Fin (mSize size)) :
    accepted i tr = executed i.val tr ++ s.waiting i := by
  have hfifo := channels_fifo ((taskDistributor_refines size Task).run h) i
  rwa [show (taskDistributor_refines size Task).obs = DistEv.obs from rfl, puts_distObs,
    gots_distObs] at hfifo

structure Pinned (P : Task → Prop) (i : Fin (mSize size)) (s : TaskDistributor size Task) : Prop where
  calls : ∀ c j t, s.calls c = some (j, t) → P t → j = i
  waiting : ∀ j, ∀ t ∈ s.waiting j, P t → j = i
  frames : ∀ k, ∀ t ∈ s.frames k, P t → k = i.val

theorem Pinned.step {P : Task → Prop} {s s' : TaskDistributor size Task} (h : Pinned P i s) (hdist : DistOk s)
    (hpool : PoolOk s) (hok : StartOnce s a) (hs : (taskDistributor size Task).step s a = some (s', es))
    (hbegins : ∀ c j t, Begins c j t a → P t → j = i)
    (hinplace : ∀ c t index, a = .addTaskASAP c (some t) index → P t → queueIndex size index = i) : Pinned P i s' := by
  have hcalls (c j t) (hcall : s'.calls c = some (j, t)) (ht : P t) : j = i := by
    rcases calls_step hdist hpool hs hcall with hold | hbegin
    · exact h.calls c j t hold ht
    · exact hbegins c j t hbegin ht
  have hwaiting := waiting_step hdist hok hs
  have hshown := taskDistributor_shown hdist hs
  have hframes := taskDistributor_frames hs
  have hsame (heq : ∀ j, s'.waiting j = s.waiting j) (j t) (hmem : t ∈ s'.waiting j) (ht : P t) : j = i :=
    h.waiting j t (heq j ▸ hmem) ht
  generalize hf : s'.frames = f at hframes
  cases hframes with
  | @executed k t ha hnil =>
    have hk : k < mSize size := by
      cases hshown with
      | executed hk => exact hk
    refine ⟨hcalls, ?_, ?_⟩
    · intro j t' hmem ht'
      refine h.waiting j t' ?_ ht'
      have heq := hwaiting j
      simp only [accepted, List.append_nil] at heq
      rw [heq]
      exact List.mem_append_right _ hmem
    · intro k' t' hmem ht'
      rw [hf, Function.update_apply] at hmem
      split at hmem
      · rename_i hk'
        obtain rfl := List.mem_singleton.mp hmem
        rw [hk', ← h.waiting ⟨k, hk⟩ t' (executed_waited hdist hok hs hk) ht']
      · exact h.frames k' t' hmem ht'
  | @returned k ha =>
    refine ⟨hcalls, hsame fun j => by simpa [accepted, executed] using (hwaiting j).symm, ?_⟩
    intro k' t' hmem ht'
    rw [hf, Function.update_apply] at hmem
    split at hmem
    · rename_i hk'
      exact hk' ▸ h.frames k t' (List.mem_of_mem_tail hmem) ht'
    · exact h.frames k' t' hmem ht'
  | @inplace k t index ha =>
    refine ⟨hcalls, hsame fun j => by simpa [accepted, executed] using (hwaiting j).symm, ?_⟩
    intro k' t' hmem ht'
    rw [hf, Function.update_apply] at hmem
    split at hmem
    · rename_i hk'
      rcases List.mem_cons.mp hmem with rfl | hmem
      · cases hshown with
        | inplace ha htpool hown =>
          rw [hk', hpool.own _ _ _ htpool hown, hinplace _ _ _ ha ht']
      · exact hk' ▸ h.frames k t' hmem ht'
    · exact h.frames k' t' hmem ht'
  | nothing | refused =>
    refine ⟨hcalls, hsame fun j => by simpa [accepted, executed] using (hwaiting j).symm, ?_⟩
    rw [hf]
    exact h.frames
  | @accepted c j t _ hcall =>
    refine ⟨hcalls, ?_, ?_⟩
    · intro j' t' hmem ht'
      have heq := hwaiting j'
      simp only [accepted, executed, List.nil_append] at heq
      rw [← heq] at hmem
      rcases List.mem_append.mp hmem with hmem | hmem
      · exact h.waiting j' t' hmem ht'
      · split at hmem
        · rename_i hj
          obtain rfl := List.mem_singleton.mp hmem
          exact hj ▸ h.calls c j t' hcall ht'
        · cases hmem
    · rw [hf]
      exact h.frames

structure CopiesSame [DecidableEq Task] (t : Task) (s s' : TaskDistributor size Task) : Prop where
  waiting : ∀ i, (s'.waiting i).count t = (s.waiting i).count t
  frames : ∀ k, (s'.frames k).count t = (s.frames k).count t
  calls : ∀ c i, s'.calls c = some (i, t) → s.calls c = some (i, t)

theorem copiesSame_of_quiet [DecidableEq Task] {t : Task} {s s' : TaskDistributor size Task} (hdist : DistOk s)
    (hpool : PoolOk s) (hok : StartOnce s a) (hs : (taskDistributor size Task).step s a = some (s', es))
    (hworker : ∀ k, a ≠ .worker k) (hbegins : ∀ (c : Caller) (i : Fin (mSize size)), ¬Begins c i t a)
    (hinplace : ∀ c t' index, a = .addTaskASAP c (some t') index → t' ≠ t)
    (haccepted : ∀ c i, .accepted c i t ∉ es) : CopiesSame t s s' := by
  have hwaiting := waiting_step hdist hok hs
  have hcalls (c i) (hcall : s'.calls c = some (i, t)) : s.calls c = some (i, t) :=
    (calls_step hdist hpool hs hcall).resolve_right (hbegins c i)
  have hframes := taskDistributor_frames hs
  generalize hf : s'.frames = f at hframes
  cases hframes with
  | executed ha | returned ha => exact (hworker _ ha).elim
  | nothing | refused =>
    refine ⟨fun i => congrArg (List.count _) ?_, fun k => by rw [hf], hcalls⟩
    simpa [accepted, executed] using (hwaiting i).symm
  | @inplace k t' index ha =>
    refine ⟨fun i => congrArg (List.count _) ?_, fun j => ?_, hcalls⟩
    · simpa [accepted, executed] using (hwaiting i).symm
    · rw [hf, Function.update_apply]
      split
      · rename_i hj
        rw [hj, List.count_cons_of_ne (hinplace _ t' index ha)]
      · rfl
  | @accepted c i t' =>
    have ht : t' ≠ t := by
      rintro rfl
      exact haccepted c i (.head _)
    refine ⟨fun j => ?_, fun k => by rw [hf], hcalls⟩
    have heq := hwaiting j
    simp only [accepted, executed, List.nil_append] at heq
    rw [← heq, List.count_append]
    split
    · rw [List.count_singleton, if_neg (by simpa using ht)]
      rfl
    · rfl

/-- What a component keeps whose tasks all go through one queue. -/
structure Carries (P : Task → Prop) (i : Fin (mSize size)) (s : TaskDistributor size Task) : Prop
    extends Pinned P i s where
  dist : DistOk s
  pool : PoolOk s

theorem carries_new (P : Task → Prop) (i : Fin (mSize size)) : Carries P i (TaskDistributor.new size Task) where
  dist := distOk_new size Task
  pool := ⟨nofun, nofun⟩
  calls := nofun
  waiting _ _ h := absurd h List.not_mem_nil
  frames _ _ h := absurd h List.not_mem_nil

theorem Carries.step {P : Task → Prop} {s s' : TaskDistributor size Task} (h : Carries P i s)
    (hok : StartOnce s a)
    (hs : (taskDistributor size Task).step s a = some (s', es))
    (hbegins : ∀ c j t, Begins c j t a → P t → j = i)
    (hinplace : ∀ c t index, a = .addTaskASAP c (some t) index → P t → queueIndex size index = i) : Carries P i s' where
  toPinned := h.toPinned.step h.dist h.pool hok hs hbegins hinplace
  dist := (taskDistributor_step h.dist hok hs).1
  pool := poolOk_step h.dist h.pool hok hs

def DistEv.task? : DistEv size Task → Option Task
  | .refused _ => none
  | .accepted _ _ t | .executed _ t | .inplace _ t => some t

/-- What a step of the distributor is to a component with the tasks `f`, and
with `pending` and `pending'` waiting before and after. -/
inductive Served (f : Task → Option R) (i : Fin (mSize size)) (s : TaskDistributor size Task)
    (pending pending' : List R) : List (DistEv size Task) → Prop
  | accepted : f t = some r → s.calls c = some (i, t) → pending' = pending ++ [r] →
      Served f i s pending pending' [.accepted c i t]
  | executed : f t = some r → pending = r :: pending' → Served f i s pending pending' [.executed i.val t]
  | other : (∀ e ∈ es, ∀ t, e.task? = some t → f t = none) → pending' = pending →
      Served f i s pending pending' es

theorem Carries.served {f : Task → Option R} {s s' : TaskDistributor size Task}
    (h : Carries (fun t => f t ≠ none) i s) (hok : StartOnce s a)
    (hs : (taskDistributor size Task).step s a = some (s', es))
    (hinplace : ∀ c t index, a = .addTaskASAP c (some t) index → f t = none) :
    Served f i s ((s.waiting i).filterMap f) ((s'.waiting i).filterMap f) es := by
  have hwaiting := waiting_step h.dist hok hs i
  have hshown := taskDistributor_shown h.dist hs
  cases hshown with
  | nothing =>
    refine .other nofun (congrArg _ ?_)
    simpa [accepted, executed] using hwaiting.symm
  | refused c =>
    refine .other (by simp [DistEv.task?]) (congrArg _ ?_)
    simpa [accepted, executed] using hwaiting.symm
  | @inplace k t index tpool ha =>
    refine .other ?_ (congrArg _ ?_)
    · rintro e (_ | ⟨_, ⟨⟩⟩) t' ⟨⟩
      exact hinplace _ _ _ ha
    · simpa [accepted, executed] using hwaiting.symm
  | @accepted c j t hcall =>
    simp only [accepted, executed, List.nil_append] at hwaiting
    cases hf : f t with
    | none =>
      refine .other ?_ ?_
      · rintro e (_ | ⟨_, ⟨⟩⟩) t' ⟨⟩
        exact hf
      · rw [← hwaiting, List.filterMap_append]
        split <;> simp [hf]
    | some r =>
      obtain rfl := h.calls c j t hcall (by rw [hf]; nofun)
      refine .accepted hf hcall ?_
      rw [← hwaiting, if_pos rfl, List.filterMap_append]
      simp [hf]
  | @executed k t hk =>
    simp only [accepted, executed, List.append_nil] at hwaiting
    cases hf : f t with
    | none =>
      refine .other ?_ ?_
      · rintro e (_ | ⟨_, ⟨⟩⟩) t' ⟨⟩
        exact hf
      · rw [hwaiting]
        split <;> simp [hf]
    | some r =>
      have hi := h.waiting ⟨k, hk⟩ t (executed_waited h.dist hok hs hk) (by rw [hf]; nofun)
      obtain rfl : k = i.val := congrArg Fin.val hi
      refine .executed hf ?_
      rw [hwaiting, if_pos rfl]
      simp [hf]

theorem executed_append {size : Nat} (k : Nat) (tr tr' : List (DistEv size Task)) :
    executed k (tr ++ tr') = executed k tr ++ executed k tr' := by
  induction tr with
  | nil => rfl
  | cons e tr ih => cases e <;> simp only [List.cons_append, executed, ih]; split <;> rfl

theorem executed_outside (h : (taskDistributor size Task).RunIf StartOnce tr s)
    (hk : mSize size ≤ k) : executed k tr = [] := by
  refine h.invariant (I := fun tr _ => executed k tr = []) rfl ?_
  intro tr s a s' es hr ih _ hs
  rw [executed_append, ih, executed_thread ((taskDistributor_refines size Task).run_inv hr) hs k hk]
  rfl

/-- Worker `i` runs the tasks accepted for `i`, each once and in order, and no
other thread runs any; an accepted task that worker `i` has not begun is in its
batch or in its queue. -/
theorem taskDistributor_runs_in_order (size : Nat) (Task : Type) (tr : List (DistEv size Task))
    (s : TaskDistributor size Task) (h : (taskDistributor size Task).RunIf StartOnce tr s) :
    (∀ i : Fin (mSize size), executed i.val tr <+: accepted i tr ∧
      accepted i tr = executed i.val tr ++ ((pcOf s.threads i).local ++
        (s.m_bqueForTask i).front ++ (s.m_bqueForTask i).tail).reduceOption) ∧
      ∀ k, mSize size ≤ k → executed k tr = [] := by
  refine ⟨fun i => ?_, fun k hk => executed_outside h hk⟩
  have heq := accepted_eq h i
  refine ⟨⟨_, heq.symm⟩, ?_⟩
  rw [List.append_assoc]
  exact heq

instance : (s : TaskDistributor size Task) → (a : DistAct Task) → Decidable (StartOnce s a)
  | s, .start => decidable_of_iff (s.m_tpool.isNone) Option.isNone_iff_eq_none
  | _, .addTask .. | _, .addTaskOf .. | _, .addTaskASAP .. | _, .pushBack _ | _, .worker _
  | _, .shutdown | _, .control => .isTrue trivial

theorem taskDistributor_runs_in_order_run : ∃ tr s, (taskDistributor 2 Nat).RunIf StartOnce tr s ∧
    accepted (queueIndex 2 1) tr = [10, 11, 12, 13] ∧ executed 1 tr = [10, 11] ∧
    executed 1 tr <+: [10, 11, 12, 13] := by
  have hr : (((taskDistributor 2 Nat).only StartOnce).replay (TaskDistributor.new 2 Nat)
      [.addTask (.external 0) (some 9) 0, .start, .control, .control, .control,
        .addTask (.external 0) (some 10) 1, .addTask (.external 1) (some 11) 7, .pushBack (.external 0),
        .worker 1, .worker 1, .pushBack (.external 1), .worker 1, .worker 1, .worker 1, .worker 1,
        .addTaskOf (.worker 1) (some 12) .shcedule 0, .pushBack (.worker 1),
        .addTask (.external 0) (some 13) 1, .shutdown, .pushBack (.external 0),
        .worker 1, .worker 1]).isSome := rfl
  have hrun := Machine.steps_of_replay_only (Option.some_get hr).symm
  exact ⟨_, _, hrun, rfl, rfl,
    ((taskDistributor_runs_in_order 2 Nat _ _ hrun).1 (queueIndex 2 1)).1⟩

end Andren.Network
