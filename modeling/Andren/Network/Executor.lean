import Andren.Network.Schedule
import Andren.Network.TaskDistributor

/-!
# The executor

An `Executor` starts a distributor in its constructor and gives every key a
worker by `Schedule`. `Schedule` reduces the key modulo the `nthreads` it is
given, while `TaskDistributor` starts one worker for 0. For every other count
the tasks of a key all run on one worker (`executor_routes`): the queued ones in
the order of submission, those that `addTask_ASAP` runs in place at once.
-/

namespace Andren.Network

open Machines

-- ---------------------------------------------------------------------------
-- The worker of a key
-- ---------------------------------------------------------------------------

theorem toNat_signExtend_64 (x : BitVec 32) :
    (x.signExtend 64).toNat = if x.toNat < 2 ^ 31 then x.toNat else x.toNat + (2 ^ 64 - 2 ^ 32) := by
  rw [BitVec.toNat_signExtend, BitVec.msb_eq_decide, BitVec.toNat_setWidth_of_le (by decide)]
  split <;> simp_all

/-- An `int` key, widened with its sign, is reduced below every count, also
where the count is negative as an `int`. -/
theorem Schedule.doSchedule_lt {s : Schedule} (hn : s.m_threadSize ≠ 0) (key : BitVec 32) :
    ∃ r, s.doScheduleUint64 (key.signExtend 64) = some r ∧ r.toNat < s.m_threadSize.toNat := by
  refine ⟨_, if_neg hn, ?_⟩
  have hkey := key.isLt
  have hsize := s.m_threadSize.isLt
  have hpos : 0 < s.m_threadSize.toNat := Nat.pos_of_ne_zero fun h => hn (BitVec.eq_of_toNat_eq h)
  rw [BitVec.toNat_setWidth, BitVec.toNat_umod, toNat_signExtend_64, toNat_signExtend_64]
  generalize key.toNat = k at *
  generalize s.m_threadSize.toNat = n at *
  rcases Nat.lt_or_ge n (2 ^ 31) with hlt | hge
  · rw [if_pos hlt]
    exact Nat.lt_of_le_of_lt (Nat.mod_le ..) (Nat.mod_lt _ hpos)
  · rw [if_neg (Nat.not_lt.mpr hge)]
    split
    · have hmod : k % (n + (2 ^ 64 - 2 ^ 32)) = k := Nat.mod_eq_of_lt (by omega)
      omega
    · rcases Nat.lt_or_ge k n with hkn | hkn
      · have hmod : (k + (2 ^ 64 - 2 ^ 32)) % (n + (2 ^ 64 - 2 ^ 32)) = k + (2 ^ 64 - 2 ^ 32) :=
          Nat.mod_eq_of_lt (by omega)
        omega
      · -- the widened count goes into the widened key once
        have hmod : (k + (2 ^ 64 - 2 ^ 32)) % (n + (2 ^ 64 - 2 ^ 32)) = k - n := by
          rw [Nat.mod_eq_sub_mod (by omega), Nat.mod_eq_of_lt (by omega), Nat.add_sub_add_right]
        omega

-- ---------------------------------------------------------------------------
-- The executor
-- ---------------------------------------------------------------------------

inductive TaskTarget
  | key (key : BitVec 32)
  | threadIndex (threadindex : BitVec 32)
  | random
  deriving DecidableEq

/-- The closure that the distributor gets. It is callable even where `task` is empty. -/
structure ExecutorTask (Task : Type) where
  target : TaskTarget
  task : Task

structure Executor (nthreads : BitVec 32) (Task : Type) where
  m_schedule : Schedule
  m_distributor : TaskDistributor nthreads.toNat (ExecutorTask Task)

inductive ExecutorAct (Task : Type)
  | addTask (c : Caller) (key : BitVec 32) (task : Task)
  | addTaskThread (c : Caller) (threadindex : BitVec 32) (task : Task)
  | addTaskASAP (c : Caller) (key : BitVec 32) (task : Task)
  | addTaskASAPThread (c : Caller) (threadindex : BitVec 32) (task : Task)
  /-- `address` is where the parameter of the call lies. -/
  | addTaskRandom (c : Caller) (address : BitVec 64) (task : Task)
  | addTaskRandomASAP (c : Caller) (address : BitVec 64) (task : Task)
  | shutdownAll
  | pushBack (c : Caller)
  | worker (thread : Nat)
  | control

inductive ExecutorEv (nthreads : BitVec 32) (Task : Type)
  /-- A call divided by zero, which is undefined. -/
  | dividesByZero
  | distributor (e : DistEv nthreads.toNat (ExecutorTask Task))

namespace Executor

variable {nthreads : BitVec 32} {Task : Type}

def new (nthreads : BitVec 32) (Task : Type) : Executor nthreads Task where
  m_schedule := ⟨nthreads⟩
  m_distributor := { TaskDistributor.new nthreads.toNat (ExecutorTask Task) with
    m_tpool := some fun _ => none
    control := .starting 0 }

def constructed (s : Executor nthreads Task) : Bool :=
  match s.m_distributor.control with
  | .starting _ => false
  | _ => true

/-- The call of `m_distributor` with the index that `m_schedule` gives `key`.
There is none where the count is zero: then the remainder is undefined. -/
def scheduled (s : Executor nthreads Task) (key : BitVec 64) (call : Nat → DistAct (ExecutorTask Task)) :
    Option (DistAct (ExecutorTask Task)) :=
  (s.m_schedule.doScheduleUint64 key).map fun index => call index.toNat

def addTask (s : Executor nthreads Task) (c : Caller) (key : BitVec 32) (task : Task) :
    Option (DistAct (ExecutorTask Task)) :=
  s.scheduled (key.signExtend 64) (.addTask c (some ⟨.key key, task⟩))

def addTaskASAP (s : Executor nthreads Task) (c : Caller) (key : BitVec 32) (task : Task) :
    Option (DistAct (ExecutorTask Task)) :=
  s.scheduled (key.signExtend 64) (.addTaskASAP c (some ⟨.key key, task⟩))

def addTaskRandom (s : Executor nthreads Task) (c : Caller) (address : BitVec 64) (task : Task) :
    Option (DistAct (ExecutorTask Task)) :=
  s.scheduled address (.addTask c (some ⟨.random, task⟩))

def addTaskRandomASAP (s : Executor nthreads Task) (c : Caller) (address : BitVec 64) (task : Task) :
    Option (DistAct (ExecutorTask Task)) :=
  s.scheduled address (.addTaskASAP c (some ⟨.random, task⟩))

def call (s : Executor nthreads Task) : ExecutorAct Task → Option (DistAct (ExecutorTask Task))
  | .addTask c key task => s.addTask c key task
  | .addTaskThread c threadindex task => some (.addTask c (some ⟨.threadIndex threadindex, task⟩) threadindex.toNat)
  | .addTaskASAP c key task => s.addTaskASAP c key task
  | .addTaskASAPThread c threadindex task =>
    some (.addTaskASAP c (some ⟨.threadIndex threadindex, task⟩) threadindex.toNat)
  | .addTaskRandom c address task => s.addTaskRandom c address task
  | .addTaskRandomASAP c address task => s.addTaskRandomASAP c address task
  | .shutdownAll => some .shutdown
  | .pushBack c => some (.pushBack c)
  | .worker k => some (.worker k)
  | .control => some .control

/-- Nobody calls an executor before its constructor has returned. -/
def canCall (s : Executor nthreads Task) : ExecutorAct Task → Bool
  | .addTask c .. | .addTaskThread c .. | .addTaskASAP c .. | .addTaskASAPThread c ..
  | .addTaskRandom c .. | .addTaskRandomASAP c .. => s.constructed && s.m_distributor.canCall c
  | .shutdownAll | .pushBack _ | .worker _ | .control => true

end Executor

/-- An executor that `Executor(nthreads)` makes, with its workers and callers. -/
def executor (nthreads : BitVec 32) (Task : Type) :
    Machine (Executor nthreads Task) (ExecutorAct Task) (ExecutorEv nthreads Task) where
  init := .new nthreads Task
  step s a :=
    if s.canCall a then
      match s.call a with
      | none => some (s, [.dividesByZero])
      | some d => ((taskDistributor nthreads.toNat (ExecutorTask Task)).step s.m_distributor d).map fun r =>
        ({ s with m_distributor := r.1 }, r.2.map .distributor)
    else none

-- ---------------------------------------------------------------------------
-- What a key sees
-- ---------------------------------------------------------------------------

section

variable {nthreads : BitVec 32} {Task : Type}

def ExecutorTask.ofKey (key : BitVec 32) (t : ExecutorTask Task) : Option Task :=
  if t.target = .key key then some t.task else none

def submittedFor (key : BitVec 32) (tr : List (ExecutorEv nthreads Task)) : List Task :=
  tr.filterMap fun
    | .distributor (.accepted _ _ t) | .distributor (.inplace _ t) => t.ofKey key
    | _ => none

def queuedFor (key : BitVec 32) (tr : List (ExecutorEv nthreads Task)) : List Task :=
  tr.filterMap fun
    | .distributor (.accepted _ _ t) => t.ofKey key
    | _ => none

def takenFor (key : BitVec 32) (tr : List (ExecutorEv nthreads Task)) : List Task :=
  tr.filterMap fun
    | .distributor (.executed _ t) => t.ofKey key
    | _ => none

def begunFor (key : BitVec 32) (tr : List (ExecutorEv nthreads Task)) : List (Nat × Task) :=
  tr.filterMap fun
    | .distributor (.executed k t) | .distributor (.inplace k t) => (t.ofKey key).map (k, ·)
    | _ => none

end

-- ---------------------------------------------------------------------------
-- The workers that are started
-- ---------------------------------------------------------------------------

section

variable {size : Nat} {Task : Type}

structure StartOk (s : TaskDistributor size Task) : Prop where
  started : ∃ tpool, s.m_tpool = some tpool
  starting : ∀ i, s.control = .starting i → i ≤ mSize size ∧ s.threads.length = i
  workers : (∀ i, s.control ≠ .starting i) → s.threads.length = mSize size

theorem StartOk.same {s s' : TaskDistributor size Task} (h : StartOk s)
    (htpool : s'.m_tpool = s.m_tpool) (hctl : s'.control = s.control)
    (hlen : s'.threads.length = s.threads.length) : StartOk s' := by
  refine ⟨?_, ?_, ?_⟩
  · rw [htpool]
    exact h.started
  · rw [hctl, hlen]
    exact h.starting
  · rw [hctl, hlen]
    exact h.workers

theorem StartOk.control {s s' : TaskDistributor size Task} (h : StartOk s)
    (hs : s.controlStep = some s') : StartOk s' := by
  have hjoin {j} (hctl : s.control = .joining j) : s.threads.length = mSize size := by
    refine h.workers fun i hi => ?_
    rw [hctl] at hi
    cases hi
  unfold TaskDistributor.controlStep at hs
  split at hs
  · cases hs
  · cases hs
  · rename_i i tpool hctl htpool
    obtain ⟨hle, hlen⟩ := h.starting i hctl
    split at hs
    · rename_i hlt
      cases hs
      refine ⟨⟨_, rfl⟩, ?_, fun hno => absurd rfl (hno (i + 1))⟩
      rintro _ ⟨⟩
      exact ⟨hlt, by simp [hlen]⟩
    · rename_i hge
      cases hs
      exact ⟨⟨_, htpool⟩, nofun, fun _ => hlen.trans (Nat.le_antisymm hle (Nat.not_lt.mp hge))⟩
  · rename_i htpool
    obtain ⟨tpool, hsome⟩ := h.started
    rw [htpool] at hsome
    cases hsome
  · rename_i j tpool hctl htpool
    split at hs
    · split at hs
      · cases hs
        exact ⟨⟨_, htpool⟩, nofun, fun _ => hjoin hctl⟩
      · split at hs <;> cases hs
        exact ⟨⟨_, rfl⟩, nofun, fun _ => hjoin hctl⟩
    · cases hs
      exact ⟨⟨_, htpool⟩, nofun, fun _ => hjoin hctl⟩

theorem StartOk.shutdown {s s' : TaskDistributor size Task} (h : StartOk s)
    (hs : (taskDistributor size Task).step s .shutdown = some (s', es)) : StartOk s' := by
  simp only [taskDistributor] at hs
  split at hs
  · rename_i hctl
    cases hs
    refine ⟨h.started, fun _ hjoining => ?_, fun _ => h.workers fun i hi => ?_⟩
    · cases hjoining
    · rw [hctl] at hi
      cases hi
  · cases hs

theorem startOk_step {s s' : TaskDistributor size Task} (h : StartOk s) (ha : a ≠ .start)
    (hs : (taskDistributor size Task).step s a = some (s', es)) : StartOk s' := by
  cases taskDistributor_moves hs with
  | refuses => exact h
  | begins | pushBack => exact h.same rfl rfl rfl
  | nests | worker => exact h.same rfl rfl (by simp)
  | start => exact absurd rfl ha
  | shutdown => exact h.shutdown hs
  | control =>
    obtain ⟨_, hctl, heq⟩ := Option.map_eq_some_iff.mp hs
    cases heq
    exact h.control hctl

end

-- ---------------------------------------------------------------------------
-- The tasks of a key
-- ---------------------------------------------------------------------------

section

variable {nthreads : BitVec 32} {Task : Type}

theorem executor_moves {s s' : Executor nthreads Task} (hs : (executor nthreads Task).step s a = some (s', es)) :
    s.canCall a = true ∧ (s.call a = none ∧ s' = s ∧ es = [.dividesByZero] ∨
      ∃ d ds, s.call a = some d ∧ s'.m_schedule = s.m_schedule ∧ es = ds.map .distributor ∧
        (taskDistributor nthreads.toNat (ExecutorTask Task)).step s.m_distributor d = some (s'.m_distributor, ds)) := by
  obtain ⟨hcan, hs⟩ := Option.ite_none_right_eq_some.mp hs
  refine ⟨hcan, ?_⟩
  split at hs
  · rename_i hcall
    cases hs
    exact .inl ⟨hcall, rfl, rfl⟩
  · rename_i d hcall
    obtain ⟨⟨m, ds⟩, hstep, heq⟩ := Option.map_eq_some_iff.mp hs
    cases heq
    exact .inr ⟨d, ds, hcall, rfl, rfl, hstep⟩

theorem scheduled_isSome {s : Executor nthreads Task} (hn : s.m_schedule.m_threadSize ≠ 0) (key : BitVec 64)
    (call : Nat → DistAct (ExecutorTask Task)) : ∃ d, s.scheduled key call = some d := by
  have hindex : ∃ r, s.m_schedule.doScheduleUint64 key = some r := ⟨_, if_neg hn⟩
  obtain ⟨r, hr⟩ := hindex
  exact ⟨_, congrArg (Option.map _) hr⟩

theorem call_isSome {s : Executor nthreads Task} (hn : s.m_schedule.m_threadSize ≠ 0) (a : ExecutorAct Task) :
    ∃ d, s.call a = some d := by
  cases a with
  | addTask | addTaskASAP | addTaskRandom | addTaskRandomASAP => exact scheduled_isSome hn _ _
  | _ => exact ⟨_, rfl⟩

theorem call_ne_start {s : Executor nthreads Task} (hcall : s.call a = some d) : d ≠ .start := by
  rintro rfl
  cases a with
  | addTask | addTaskASAP | addTaskRandom | addTaskRandomASAP =>
    obtain ⟨r, hr, heq⟩ := Option.map_eq_some_iff.mp hcall
    cases heq
  | _ => cases hcall

theorem call_startOnce {s : Executor nthreads Task} (hcall : s.call a = some d) : StartOnce s.m_distributor d := by
  cases d with
  | start => exact absurd rfl (call_ne_start hcall)
  | _ => trivial

theorem call_ofKey {s : Executor nthreads Task} (hcall : s.call a = some d) (hasks : Asks size c (some t) index d)
    (ht : t.target = .key key) :
    ∃ r, s.m_schedule.doScheduleUint64 (key.signExtend 64) = some r ∧ index = r.toNat := by
  cases a with
  | addTask | addTaskASAP | addTaskRandom | addTaskRandomASAP =>
    obtain ⟨r, hr, heq⟩ := Option.map_eq_some_iff.mp hcall
    cases heq
    cases hasks
    cases ht
    all_goals exact ⟨r, hr, rfl⟩
  | addTaskThread | addTaskASAPThread =>
    cases hcall
    cases hasks
    cases ht
  | _ =>
    cases hcall
    cases hasks

def WorkerOf (nthreads key : BitVec 32) (i : Fin (mSize nthreads.toNat)) : Prop :=
  ∀ r, (Schedule.mk nthreads).doScheduleUint64 (key.signExtend 64) = some r → r.toNat = i.val

structure ExecutorOk (key : BitVec 32) (i : Fin (mSize nthreads.toNat)) (s : Executor nthreads Task) : Prop where
  schedule : s.m_schedule = ⟨nthreads⟩
  start : StartOk s.m_distributor
  carries : Carries (fun t => t.target = .key key) i s.m_distributor

theorem executorOk_new (key : BitVec 32) (i : Fin (mSize nthreads.toNat)) :
    ExecutorOk key i (Executor.new nthreads Task) where
  schedule := rfl
  start := by
    refine ⟨⟨_, rfl⟩, ?_, fun hno => absurd rfl (hno 0)⟩
    rintro _ ⟨⟩
    exact ⟨Nat.zero_le _, rfl⟩
  carries := (carries_new (fun t : ExecutorTask Task => t.target = .key key) i).step (a := .start)
    rfl rfl nofun nofun

theorem ExecutorOk.queueIndex_eq {s : Executor nthreads Task} (h : ExecutorOk key i s)
    (hi : WorkerOf nthreads key i) (hcall : s.call a = some d)
    (hasks : Asks nthreads.toNat c (some t) index d) (ht : t.target = .key key) :
    queueIndex nthreads.toNat index = i := by
  obtain ⟨r, hr, rfl⟩ := call_ofKey hcall hasks ht
  rw [h.schedule] at hr
  rw [hi r hr, queueIndex_of_lt i.isLt]

theorem executorOk_step {s s' : Executor nthreads Task} (h : ExecutorOk key i s) (hi : WorkerOf nthreads key i)
    (hs : (executor nthreads Task).step s a = some (s', es)) : ExecutorOk key i s' := by
  obtain ⟨-, ⟨-, rfl, -⟩ | ⟨d, ds, hcall, hschedule, -, hstep⟩⟩ := executor_moves hs
  · exact h
  · refine ⟨hschedule.trans h.schedule, startOk_step h.start (call_ne_start hcall) hstep,
      h.carries.step (call_startOnce hcall) hstep ?_ ?_⟩
    · rintro c j t (rfl | rfl | ⟨rfl, -⟩) ht
      · exact h.queueIndex_eq hi hcall (.addTask _) ht
      · exact h.queueIndex_eq hi hcall (.addTaskOf _ _) ht
      · exact h.queueIndex_eq hi hcall (.addTaskASAP _) ht
    · rintro c t index rfl ht
      exact h.queueIndex_eq hi hcall (.addTaskASAP _) ht

theorem ofKey_eq_some {t : ExecutorTask Task} (h : t.ofKey key = some task) : t.target = .key key := by
  unfold ExecutorTask.ofKey at h
  split at h
  · assumption
  · cases h

def Executor.waitingFor (s : Executor nthreads Task) (key : BitVec 32) (i : Fin (mSize nthreads.toNat)) : List Task :=
  (s.m_distributor.waiting i).filterMap (·.ofKey key)

theorem executor_forKey {s s' : Executor nthreads Task} (h : ExecutorOk key i s) (hi : WorkerOf nthreads key i)
    (hs : (executor nthreads Task).step s a = some (s', es)) :
    (∀ x ∈ begunFor key es, x.1 = i.val) ∧
      s.waitingFor key i ++ queuedFor key es = takenFor key es ++ s'.waitingFor key i := by
  obtain ⟨-, ⟨-, rfl, rfl⟩ | ⟨d, ds, hcall, hschedule, rfl, hstep⟩⟩ := executor_moves hs
  · exact ⟨nofun, List.append_nil _⟩
  · have hok := call_startOnce hcall
    have hwaiting := congrArg (List.filterMap (·.ofKey key)) (waiting_step h.carries.dist hok hstep i)
    simp only [List.filterMap_append] at hwaiting
    cases taskDistributor_shown h.carries.dist hstep with
    | nothing | refused => exact ⟨nofun, hwaiting⟩
    | @accepted c j t hc =>
      refine ⟨nofun, ?_⟩
      cases hof : t.ofKey key with
      | none => simpa [accepted, executed, queuedFor, takenFor, Executor.waitingFor, hof, apply_ite] using hwaiting
      | some task =>
        obtain rfl := h.carries.calls c j t hc (ofKey_eq_some hof)
        simpa [accepted, executed, queuedFor, takenFor, Executor.waitingFor, hof] using hwaiting
    | @executed k t hk =>
      cases hof : t.ofKey key with
      | none =>
        refine ⟨by simp [begunFor, hof], ?_⟩
        simpa [accepted, executed, queuedFor, takenFor, Executor.waitingFor, hof, apply_ite] using hwaiting
      | some task =>
        have hwaits := executed_waited h.carries.dist hok hstep hk
        obtain rfl := h.carries.waiting ⟨k, hk⟩ t hwaits (ofKey_eq_some hof)
        refine ⟨by simp [begunFor, hof], ?_⟩
        simpa [accepted, executed, queuedFor, takenFor, Executor.waitingFor, hof] using hwaiting
    | @inplace k t index tpool ha htpool hown =>
      refine ⟨?_, hwaiting⟩
      cases hof : t.ofKey key with
      | none => simp [begunFor, hof]
      | some task =>
        subst ha
        have hindex := h.queueIndex_eq hi hcall (.addTaskASAP index) (ofKey_eq_some hof)
        have hk := h.carries.pool.own _ _ _ htpool hown
        rw [hindex] at hk
        simp [begunFor, hof, hk]

theorem executor_run {s : Executor nthreads Task} (hi : WorkerOf nthreads key i)
    (h : (executor nthreads Task).Run tr s) :
    ExecutorOk key i s ∧ (∀ x ∈ begunFor key tr, x.1 = i.val) ∧
      queuedFor key tr = takenFor key tr ++ s.waitingFor key i := by
  refine h.invariant (I := fun tr s => ExecutorOk key i s ∧ (∀ x ∈ begunFor key tr, x.1 = i.val) ∧
    queuedFor key tr = takenFor key tr ++ s.waitingFor key i) ⟨executorOk_new key i, nofun, rfl⟩ ?_
  rintro tr s a s' es - ⟨hok, hbegun, hqueued⟩ - hs
  obtain ⟨hbegun', hqueued'⟩ := executor_forKey hok hi hs
  refine ⟨executorOk_step hok hi hs, ?_, ?_⟩
  · intro x hx
    rw [begunFor, List.filterMap_append] at hx
    rcases List.mem_append.mp hx with hx | hx
    · exact hbegun x hx
    · exact hbegun' x hx
  · simp only [queuedFor, takenFor, List.filterMap_append] at hqueued hqueued' ⊢
    rw [hqueued, List.append_assoc, hqueued', List.append_assoc]

/-- `addTask_ASAP` of a worker that `m_tpool` names for the index runs the task at once. -/
theorem addTaskASAP_inplace {size : Nat} {s s' : TaskDistributor size Task} {ds : List (DistEv size Task)}
    {tpool : Fin (mSize size) → Option Nat} (htpool : s.m_tpool = some tpool) (hk : tpool (queueIndex size index) = some k)
    (hs : (taskDistributor size Task).step s (.addTaskASAP (.worker k) (some t) index) = some (s', ds)) :
    ds = [.inplace k t] := by
  obtain ⟨hcan, hs⟩ := Option.ite_none_right_eq_some.mp hs
  obtain ⟨-, hrunning⟩ := Bool.and_eq_true_iff.mp hcan
  simp only [TaskDistributor.addTaskASAP, htpool, if_pos hk] at hs
  split at hs
  · cases hs
    rfl
  · rename_i hidle
    dsimp only at hrunning
    split at hrunning
    · rename_i hw
      exact absurd hw (hidle _ _ _ _)
    · cases hrunning

theorem ExecutorOk.inplace {s s' : Executor nthreads Task} (h : ExecutorOk key i s)
    (hi : WorkerOf nthreads key i) (hn : nthreads ≠ 0)
    (hs : (executor nthreads Task).step s (.addTaskASAP (.worker i) key task) = some (s', es)) :
    es = [.distributor (.inplace i ⟨.key key, task⟩)] := by
  obtain ⟨hcan, ⟨hcall, -⟩ | ⟨d, ds, hcall, -, rfl, hstep⟩⟩ := executor_moves hs
  · obtain ⟨d, hsome⟩ := call_isSome (by rw [h.schedule]; exact hn) (.addTaskASAP (.worker i) key task)
    rw [hcall] at hsome
    cases hsome
  · obtain ⟨-, hcan⟩ := Bool.and_eq_true_iff.mp hcan
    obtain ⟨tpool, htpool⟩ := h.start.started
    have hown := h.carries.pool.canCall h.carries.dist htpool hcan rfl
    obtain ⟨r, hr, heq⟩ := Option.map_eq_some_iff.mp hcall
    cases heq
    have hindex := h.queueIndex_eq hi hcall (.addTaskASAP _) rfl
    rw [addTaskASAP_inplace htpool (hindex ▸ hown) hstep]
    rfl

/-- What an executor does with the tasks of `key`, whose worker is `i`. -/
structure RoutesKey (key : BitVec 32) (i : Fin (mSize nthreads.toNat)) (tr : List (ExecutorEv nthreads Task))
    (s : Executor nthreads Task) : Prop where
  defined : .dividesByZero ∉ tr
  started : s.constructed = true → i < s.m_distributor.threads.length
  addTask : ∀ c task, s.addTask c key task = some (.addTask c (some ⟨.key key, task⟩) i)
  addTaskASAP : ∀ c task, s.addTaskASAP c key task = some (.addTaskASAP c (some ⟨.key key, task⟩) i)
  worker : ∀ x ∈ begunFor key tr, x.1 = i.val
  order : takenFor key tr <+: queuedFor key tr
  inplace : ∀ task s' es, (executor nthreads Task).step s (.addTaskASAP (.worker i) key task) = some (s', es) →
    es = [.distributor (.inplace i ⟨.key key, task⟩)]

theorem executor_defined {s : Executor nthreads Task} (hn : nthreads ≠ 0)
    (h : (executor nthreads Task).Run tr s) : s.m_schedule = ⟨nthreads⟩ ∧ ExecutorEv.dividesByZero ∉ tr := by
  refine h.invariant (I := fun tr s => s.m_schedule = ⟨nthreads⟩ ∧ ExecutorEv.dividesByZero ∉ tr)
    ⟨rfl, nofun⟩ ?_
  rintro tr s a s' es - ⟨hschedule, hdefined⟩ - hs
  obtain ⟨-, ⟨hcall, -⟩ | ⟨d, ds, -, hkeep, rfl, -⟩⟩ := executor_moves hs
  · obtain ⟨d, hsome⟩ := call_isSome (by rw [hschedule]; exact hn) a
    rw [hcall] at hsome
    cases hsome
  · exact ⟨hkeep.trans hschedule, by simpa using hdefined⟩

/-- Every key has one worker, which both calls choose and which is started. It
runs the queued tasks of the key in their order, and in place those that it
gives itself with `addTask_ASAP`. -/
theorem executor_routes (nthreads key : BitVec 32) (Task : Type) (hn : nthreads ≠ 0) :
    ∃ i : Fin (mSize nthreads.toNat), ∀ tr s, (executor nthreads Task).Run tr s → RoutesKey key i tr s := by
  obtain ⟨r, hr, hlt⟩ := Schedule.doSchedule_lt (s := ⟨nthreads⟩) hn key
  have hsize : r.toNat < mSize nthreads.toNat := Nat.lt_of_lt_of_le hlt (Nat.le_max_left ..)
  have hi : WorkerOf nthreads key ⟨r.toNat, hsize⟩ := by
    intro r' hr'
    rw [hr] at hr'
    cases hr'
    rfl
  refine ⟨⟨r.toNat, hsize⟩, fun tr s hrun => ?_⟩
  obtain ⟨hok, hbegun, hqueued⟩ := executor_run hi hrun
  have hindex : s.m_schedule.doScheduleUint64 (key.signExtend 64) = some r := hok.schedule ▸ hr
  refine ⟨(executor_defined hn hrun).2, ?_, ?_, ?_, hbegun, ⟨_, hqueued.symm⟩, fun task s' es hs => hok.inplace hi hn hs⟩
  · intro hdone
    rw [hok.start.workers]
    · exact Fin.isLt _
    · intro j hj
      simp [Executor.constructed, hj] at hdone
  · intro c task
    simp [Executor.addTask, Executor.scheduled, hindex]
  · intro c task
    simp [Executor.addTaskASAP, Executor.scheduled, hindex]

end

/-- One worker is started for 0, and the remainder is undefined. -/
example : mSize 0 = 1 ∧ (Executor.new 0 Nat).addTask (.external 0) 5 7 = none := ⟨rfl, rfl⟩

theorem executor_routes_negative : ∃ i tr s, (executor 2 Nat).Run tr s ∧ begunFor (-1) tr = [(1, 7)] ∧
    RoutesKey (-1) i tr s := by
  have hr : ((executor 2 Nat).replay (.new 2 Nat) [.control, .control, .control,
      .addTask (.external 0) (-1) 7, .pushBack (.external 0),
      .worker 1, .worker 1, .worker 1, .worker 1, .worker 1, .worker 1]).isSome := rfl
  have hrun := Machine.steps_of_replay (Option.some_get hr).symm
  obtain ⟨i, hroutes⟩ := executor_routes 2 (-1) Nat (by decide)
  exact ⟨i, _, _, hrun, rfl, hroutes _ _ hrun⟩

/-- A task of key 5 queues a second one and then gives a third, which runs first. -/
theorem executor_overtakes : ¬∀ tr s, (executor 1 Nat).Run tr s →
    (begunFor 5 tr).map Prod.snd <+: submittedFor 5 tr := by
  intro h
  have hr : ((executor 1 Nat).replay (.new 1 Nat) [.control, .control,
      .addTask (.external 0) 5 10, .pushBack (.external 0),
      .worker 0, .worker 0, .worker 0, .worker 0, .worker 0, .worker 0,
      .addTask (.worker 0) 5 11, .pushBack (.worker 0), .addTaskASAP (.worker 0) 5 12]).isSome := rfl
  have hprefix := h _ _ (Machine.steps_of_replay (Option.some_get hr).symm)
  have hbegun : [10, 12] <+: [10, 11, 12] := hprefix
  exact absurd hbegun (by decide)

end Andren.Network
