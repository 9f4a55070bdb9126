import Andren.Machine.Progress
import Andren.Network.TaskDistributor

/-!
# No task starves

A worker takes what its queue holds in batches, and its queue is filled behind its back. A task that
is pending for it has a place in the order, and a bound on the worker's steps until it begins
depends on that place alone: what is added later does not delay it. Only a task that runs in place,
inside another, costs a step more.

So as long as nobody starts the distributor again or shuts it down, a task that is pending for a
worker begins after so many steps of that worker (`pending_tasks_begin`).
-/

namespace Andren.Network

open Machines Base

variable {Task : Type}

-- ---------------------------------------------------------------------------
-- A worker
-- ---------------------------------------------------------------------------

/-- A bound on the worker's steps until it has begun `r` pending tasks. Of its own batch it needs two
steps for each; a round through the queue costs six more. -/
def stepsLeft (r : Nat) (q : MutexQue (Option Task)) : WorkerPc Task → Nat
  | .top => 2 * r + 5
  | .taking .test => 2 * r + 4
  | .taking .swap => 2 * r + 3
  | .taking .retest =>
    if r ≤ q.front.length then 2 * r + 2 else if q.front = [] then 2 * r + 7 else 2 * r + 8
  | .taking .remove => if r ≤ q.front.length then 2 * r + 1 else 2 * r + 7
  | .waiting => 2 * r + 6
  | .batch rest => if r ≤ rest.length then 2 * r else 2 * r + 6
  | .running _ outer rest => outer.length + 1 + if r ≤ rest.length then 2 * r else 2 * r + 6
  | .returned => 2 * r

def Fronted (q : MutexQue (Option Task)) : WorkerPc Task → Prop
  | .taking .retest | .taking .remove => True
  | _ => q.front = []

structure WorkerOk (exit : Bool) (q : MutexQue (Option Task)) (pc : WorkerPc Task) : Prop where
  take : WorkerTakeOk q pc
  fronted : Fronted q pc
  tasks : ∀ e ∈ pc.local ++ q.contents, e.isSome
  live : exit = false → pc ≠ .returned

section

variable {q q' : MutexQue (Option Task)} {pc pc' : WorkerPc Task} {ts : List Task}

theorem stepsLeft_pos (hr : 0 < r) (q : MutexQue (Option Task)) (pc : WorkerPc Task) : 0 < stepsLeft r q pc := by
  cases pc with
  | taking pc =>
    cases pc with
    | retest | remove =>
      simp only [stepsLeft]
      repeat' split
      all_goals omega
    | test | swap =>
      simp only [stepsLeft]
      omega
  | batch | running =>
    simp only [stepsLeft]
    split <;> omega
  | top | waiting | returned =>
    simp only [stepsLeft]
    omega

theorem stepsLeft_le (r : Nat) (q : MutexQue (Option Task)) (pc : WorkerPc Task) :
    stepsLeft r q pc ≤ 2 * r + 8 + pc.frames.length := by
  cases pc with
  | taking pc =>
    cases pc with
    | retest | remove =>
      simp only [stepsLeft]
      repeat' split
      all_goals omega
    | test | swap =>
      simp only [stepsLeft]
      omega
  | batch rest =>
    simp only [stepsLeft]
    split <;> omega
  | running task outer rest =>
    simp only [stepsLeft, WorkerPc.frames, List.length_cons]
    split <;> omega
  | top | waiting | returned =>
    simp only [stepsLeft]
    omega

theorem length_pendingTasks (h : ∀ e ∈ pc.local ++ q.contents, e.isSome) :
    (pendingTasks q pc).length = (pc.local ++ q.contents).length :=
  List.reduceOption_length_eq_iff.mpr h

theorem WorkerOk.pushBack (h : WorkerOk exit q pc) (t : Task) : WorkerOk exit (q.pushBack (some t)) pc := by
  refine ⟨h.take.pushBack _, ?_, ?_, h.live⟩
  · have hfronted := h.fronted
    cases pc with
    | taking tpc => cases tpc <;> exact hfronted
    | _ => exact hfronted
  · rw [MutexQue.contents_pushBack, ← List.append_assoc, List.forall_mem_append]
    exact ⟨h.tasks, by simp⟩

/-- A step of a take leaves `front` empty, or the take knows of it. -/
theorem takeStep_fronted {next : TakePc ⊕ List (Option Task)} (h : Fronted q (.taking tpc))
    (hs : q.takeStep .multi tpc = some (q', next)) :
    next.elim (fun tpc' => Fronted q' (.taking tpc')) fun _ => q'.front = [] := by
  cases tpc with
  | test =>
    cases hs
    have hfront : q.front = [] := h
    simp [hfront, Fronted]
  | swap =>
    cases hs
    trivial
  | retest =>
    simp only [MutexQue.takeStep, Option.some.injEq, Prod.mk.injEq] at hs
    obtain ⟨rfl, rfl⟩ := hs
    by_cases hfront : q.front = []
    · simp [hfront]
    · simp [hfront, Fronted]
  | remove =>
    cases hs
    rfl

theorem workerStep_tasks (h : ∀ e ∈ pc.local ++ q.contents, e.isSome)
    (htake : WorkerTakeOk q pc) (hs : workerStep exit q pc = some (q', pc', ts)) :
    ∀ e ∈ pc'.local ++ q'.contents, e.isSome := by
  cases pc with
  | taking tpc =>
    simp only [workerStep, Option.bind_eq_bind, Option.bind_eq_some_iff] at hs
    obtain ⟨⟨q₁, next⟩, ht, hs⟩ := hs
    cases next with
    | inl next =>
      cases hs
      rwa [show (WorkerPc.taking next : WorkerPc Task).local = [] from rfl, (takeStep_inl htake ht).2]
    | inr res =>
      cases hs
      have hlocal : (if res.isEmpty then WorkerPc.waiting else .batch res).local = res := by
        cases res <;> rfl
      rwa [hlocal, ← takeStep_inr ht]
  | batch rest =>
    rcases rest with - | ⟨_ | task, rest⟩
    · cases hs
      exact h
    · cases hs
      exact fun e he => h e (.tail _ he)
    · cases hs
      exact fun e he => h e (.tail _ he)
  | running task outer rest => cases outer <;> cases hs <;> exact h
  | top =>
    cases hs
    cases exit <;> exact h
  | waiting =>
    cases hs
    exact h
  | returned => cases hs

theorem WorkerOk.step (h : WorkerOk exit q pc) (hs : workerStep exit q pc = some (q', pc', ts)) :
    WorkerOk exit q' pc' := by
  refine ⟨(workerStep_pending h.take hs).1, ?_, workerStep_tasks h.tasks h.take hs, ?_⟩
  · have hfronted := h.fronted
    cases pc with
    | taking tpc =>
      simp only [workerStep, Option.bind_eq_bind, Option.bind_eq_some_iff] at hs
      obtain ⟨⟨q₁, next⟩, ht, hs⟩ := hs
      have hfront := takeStep_fronted hfronted ht
      cases next with
      | inl next =>
        cases hs
        exact hfront
      | inr res =>
        cases hs
        split <;> exact hfront
    | batch rest => rcases rest with - | ⟨_ | task, rest⟩ <;> cases hs <;> exact hfronted
    | running task outer rest => cases outer <;> cases hs <;> exact hfronted
    | top =>
      cases hs
      cases exit <;> exact hfronted
    | waiting =>
      cases hs
      exact hfronted
    | returned => cases hs
  · rintro rfl
    cases pc with
    | taking tpc =>
      simp only [workerStep, Option.bind_eq_bind, Option.bind_eq_some_iff] at hs
      obtain ⟨⟨q₁, next⟩, -, hs⟩ := hs
      cases next with
      | inl next => cases hs; rintro ⟨⟩
      | inr res => cases hs; split <;> rintro ⟨⟩
    | batch rest => rcases rest with - | ⟨_ | task, rest⟩ <;> cases hs <;> rintro ⟨⟩
    | running task outer rest => cases outer <;> cases hs <;> rintro ⟨⟩
    | top | waiting => cases hs; rintro ⟨⟩
    | returned => cases hs

theorem takeStep_left {next : TakePc} (hok : WorkerOk false q (.taking tpc)) (hr : r ≤ q.contents.length)
    (hs : q.takeStep .multi tpc = some (q', .inl next)) :
    stepsLeft r q' (.taking next) + 1 ≤ stepsLeft r q (.taking tpc) := by
  cases tpc with
  | test =>
    cases hs
    have hfront : q.front = [] := hok.fronted
    simp only [hfront, List.isEmpty_nil, if_true, stepsLeft]
    omega
  | swap =>
    cases hs
    have hfront : q.front = [] := hok.fronted
    rw [MutexQue.contents, hfront, List.nil_append] at hr
    have htail : r ≤ q.swap.front.length := hr
    simp only [stepsLeft, if_pos htail]
    omega
  | retest =>
    simp only [MutexQue.takeStep, Option.some.injEq, Prod.mk.injEq] at hs
    obtain ⟨rfl, hs⟩ := hs
    by_cases hfront : q.front = []
    · simp [hfront] at hs
    · simp only [List.isEmpty_iff, hfront, if_false, Sum.inl.injEq] at hs
      subst hs
      simp only [stepsLeft, hfront, if_false]
      split <;> omega
  | remove => simp [MutexQue.takeStep] at hs

theorem takeEnd_left {res : List (Option Task)} (hok : WorkerOk false q (.taking tpc)) (hr : 0 < r)
    (hs : q.takeStep .multi tpc = some (q', .inr res)) :
    stepsLeft r q' (if res.isEmpty then .waiting else .batch res) + 1 ≤ stepsLeft r q (.taking tpc) := by
  cases tpc with
  | test => simp [MutexQue.takeStep] at hs
  | swap => simp [MutexQue.takeStep] at hs
  | retest =>
    simp only [MutexQue.takeStep, Option.some.injEq, Prod.mk.injEq] at hs
    obtain ⟨rfl, hs⟩ := hs
    by_cases hfront : q.front = []
    · simp only [hfront, List.isEmpty_nil, if_true, Sum.inr.injEq] at hs
      subst hs
      simp only [stepsLeft, hfront, List.isEmpty_nil, if_true, List.length_nil, Nat.le_zero, if_neg (Nat.ne_of_gt hr)]
      omega
    · simp [hfront] at hs
  | remove =>
    have hfront : q.front ≠ [] := hok.take
    cases hs
    simp only [List.isEmpty_iff, hfront, if_false, stepsLeft]
    split <;> omega

/-- What a worker has left goes down by one with each of its steps. -/
theorem workerStep_left (hok : WorkerOk false q pc) (hr : r ≤ (pendingTasks q pc).length)
    (hs : workerStep false q pc = some (q', pc', ts)) (hgoal : ts.length < r) :
    stepsLeft (r - ts.length) q' pc' + 1 ≤ stepsLeft r q pc := by
  rw [length_pendingTasks hok.tasks] at hr
  cases pc with
  | top =>
    cases hs
    simp only [stepsLeft, Bool.false_eq_true, if_false, List.length_nil, Nat.sub_zero]
    omega
  | taking tpc =>
    simp only [workerStep, Option.bind_eq_bind, Option.bind_eq_some_iff] at hs
    obtain ⟨⟨q₁, next⟩, htake, hs⟩ := hs
    cases next with
    | inl next =>
      cases hs
      exact takeStep_left hok hr htake
    | inr res =>
      cases hs
      exact takeEnd_left hok hgoal htake
  | waiting =>
    cases hs
    simp only [stepsLeft, List.length_nil, Nat.sub_zero]
    omega
  | batch rest =>
    rcases rest with - | ⟨_ | task, rest⟩
    · cases hs
      have hneg : ¬r ≤ 0 := Nat.not_le_of_gt hgoal
      simp only [stepsLeft, List.length_nil, Nat.sub_zero, if_neg hneg]
      omega
    · exact absurd (hok.tasks none (by simp [WorkerPc.local])) Bool.false_ne_true
    · cases hs
      simp only [stepsLeft, List.length_cons, List.length_nil]
      split <;> split <;> omega
  | running task outer rest =>
    cases outer with
    | nil =>
      cases hs
      simp only [stepsLeft, List.length_nil, Nat.sub_zero]
      omega
    | cons next outer =>
      cases hs
      simp only [stepsLeft, List.length_nil, List.length_cons, Nat.sub_zero]
      omega
  | returned => exact absurd rfl (hok.live rfl)

end

-- ---------------------------------------------------------------------------
-- The workers
-- ---------------------------------------------------------------------------

section

variable {size : Nat} {s s' : TaskDistributor size Task} {es : List (DistEv size Task)} {i : Fin (mSize size)}

structure WorkersOk (s : TaskDistributor size Task) : Prop where
  dist : DistOk s
  workers : ∀ i, WorkerOk s.m_exit (s.m_bqueForTask i) (pcOf s.threads i)

theorem stepsLeft_pushBack (r : Nat) (q : MutexQue (Option Task)) (pc : WorkerPc Task) (t : Option Task) :
    stepsLeft r (q.pushBack t) pc = stepsLeft r q pc := by
  cases pc with
  | taking pc => cases pc <;> rfl
  | _ => rfl

theorem pcOf_setWorker (hdist : DistOk s) (hw : s.threads[k]? = some w) (pc : WorkerPc Task) (i : Fin (mSize size)) :
    pcOf (s.threads.set k ⟨w.index, pc⟩) i = if i = w.index then pc else pcOf s.threads i := by
  have hk : w.index.val = k := hdist.index k w hw
  rw [pcOf_set hw, Function.update_apply, ← hk]
  simp only [Fin.ext_iff]

theorem pcOf_worker {k : Nat} {w : Worker size Task} (hdist : DistOk s) (hw : s.threads[k]? = some w) :
    pcOf s.threads w.index = w.pc := by
  rw [hdist.index k w hw, pcOf_eq hw]

theorem workersOk_step (h : WorkersOk s) (hok : StartOnce s a)
    (hs : (taskDistributor size Task).step s a = some (s', es)) : WorkersOk s' := by
  refine ⟨(taskDistributor_step h.dist hok hs).1, fun i => ?_⟩
  have hi := h.workers i
  cases taskDistributor_moves hs with
  | refuses | begins => exact hi
  | @nests k tpool task outer rest j t index htpool hk hw =>
    dsimp only
    rw [pcOf_setWorker h.dist hw]
    split
    next hij =>
      rw [hij, pcOf_worker h.dist hw] at hi
      exact ⟨trivial, hij ▸ hi.fronted, hij ▸ hi.tasks, nofun⟩
    · exact hi
  | @pushBack c j t hcall =>
    dsimp only
    rw [Function.update_apply]
    split
    next hij =>
      rw [hij] at hi ⊢
      exact hi.pushBack t
    · exact hi
  | @worker k w q pc ts hw hstep =>
    dsimp only
    rw [pcOf_setWorker h.dist hw, Function.update_apply]
    split
    next hij =>
      rw [hij, pcOf_worker h.dist hw] at hi
      exact hi.step hstep
    · exact hi
  | start =>
    have htop : pcOf s.threads i = .top := by
      rw [h.dist.notStarted hok]
      rfl
    rw [htop] at hi ⊢
    exact ⟨hi.take, hi.fronted, hi.tasks, nofun⟩
  | shutdown => exact ⟨hi.take, hi.fronted, hi.tasks, nofun⟩
  | control hctl =>
    cases hctl with
    | spawns =>
      rw [pcOf_append]
      exact hi
    | skips | joins | ends => exact hi

theorem workersOk_run (h : (taskDistributor size Task).RunIf StartOnce tr s) : WorkersOk s :=
  h.state_invariant ⟨distOk_new size Task, fun _ => ⟨trivial, rfl, nofun, nofun⟩⟩
    fun _ _ _ _ hi hok hs => workersOk_step hi hok hs

end

-- ---------------------------------------------------------------------------
-- Tasks that are pending
-- ---------------------------------------------------------------------------

section

variable {size : Nat} {s s' : TaskDistributor size Task} {es : List (DistEv size Task)} {i : Fin (mSize size)}

/-- Nobody starts the distributor or shuts it down. -/
def Undisturbed : DistAct Task → Prop
  | .start | .shutdown => False
  | _ => True

def isStepOf (i : Nat) : DistAct Task → Bool
  | .worker k => k == i
  | _ => false

def isInplaceOf (i : Nat) : DistEv size Task → Bool
  | .inplace k _ => k == i
  | _ => false

def isExecutedOf (i : Nat) : DistEv size Task → Bool
  | .executed k _ => k == i
  | _ => false

theorem length_executed (i : Nat) (tr : List (DistEv size Task)) :
    (executed i tr).length = tr.countP (isExecutedOf i) := by
  induction tr with
  | nil => rfl
  | cons e tr ih =>
    cases e with
    | executed k t =>
      rw [List.countP_cons, ← ih, executed]
      by_cases hk : k = i <;> simp [hk, isExecutedOf]
    | refused c => exact ih
    | accepted c j t => exact ih
    | inplace k t => exact ih

theorem countP_executed (k i : Nat) (ts : List Task) :
    (ts.map (.executed k) : List (DistEv size Task)).countP (isExecutedOf i) = if k = i then ts.length else 0 := by
  rw [List.countP_map]
  split
  next hk => exact List.countP_eq_length.mpr fun _ _ => beq_iff_eq.mpr hk
  next hk => exact List.countP_eq_zero.mpr fun _ _ h => hk (beq_iff_eq.mp h)

theorem Undisturbed.startOnce {a : DistAct Task} (h : Undisturbed a) : StartOnce s a := by
  cases a with
  | start => exact h.elim
  | _ => trivial

theorem stepsLeft_step (h : WorkersOk s) (hexit : s.m_exit = false) (ha : Undisturbed a)
    (hs : (taskDistributor size Task).step s a = some (s', es)) (hr : r ≤ (s.waiting i).length)
    (hgoal : es.countP (isExecutedOf i) < r) : s'.m_exit = false ∧
      stepsLeft (r - es.countP (isExecutedOf i)) (s'.m_bqueForTask i) (pcOf s'.threads i) + [a].countP (isStepOf i) ≤
        stepsLeft r (s.m_bqueForTask i) (pcOf s.threads i) + es.countP (isInplaceOf i) := by
  have hi := h.workers i
  cases taskDistributor_moves hs with
  | refuses hasks => cases hasks <;> exact ⟨hexit, Nat.le_refl _⟩
  | begins hasks => cases hasks <;> exact ⟨hexit, Nat.le_refl _⟩
  | @nests k tpool task outer rest j t index htpool hk hw =>
    refine ⟨hexit, ?_⟩
    dsimp only
    rw [pcOf_setWorker h.dist hw]
    split
    next hij =>
      have hk : k = i.val := by
        rw [hij]
        exact (h.dist.index k _ hw).symm
      have hpc : pcOf s.threads i = .running task outer rest := by rw [hij, pcOf_worker h.dist hw]
      rw [hpc]
      simp [stepsLeft, isStepOf, isInplaceOf, isExecutedOf, hk]
      omega
    · exact Nat.le_add_right _ _
  | @pushBack c j t hcall =>
    refine ⟨hexit, ?_⟩
    dsimp only
    rw [Function.update_apply]
    split
    next hij =>
      rw [hij, stepsLeft_pushBack]
      exact Nat.le_refl _
    · exact Nat.le_refl _
  | @worker k w q pc ts hw hstep =>
    refine ⟨hexit, ?_⟩
    have hindex := h.dist.index k w hw
    dsimp only
    rw [pcOf_setWorker h.dist hw, Function.update_apply]
    split
    next hij =>
      have hk : k = i.val := by rw [hij, hindex]
      have hpc : pcOf s.threads i = w.pc := by rw [hij, pcOf_worker h.dist hw]
      rw [countP_executed, if_pos hk] at hgoal ⊢
      rw [← hij, hexit] at hstep
      rw [← hpc] at hstep
      rw [hexit] at hi
      have hleft := workerStep_left hi hr hstep hgoal
      have hone : ([.worker k] : List (DistAct Task)).countP (isStepOf i) = 1 := by simp [isStepOf, hk]
      omega
    next hij =>
      have hk : k ≠ i.val := fun hk => hij (Fin.ext (hk.symm.trans hindex.symm))
      rw [countP_executed, if_neg hk]
      simp [isStepOf, hk]
  | start => exact ha.elim
  | shutdown => exact ha.elim
  | control hctl =>
    cases hctl with
    | spawns =>
      rw [pcOf_append]
      exact ⟨hexit, Nat.le_refl _⟩
    | skips | joins | ends => exact ⟨hexit, Nat.le_refl _⟩

def workerProgress (size : Nat) (Task : Type) (i : Fin (mSize size)) :
    Machines.Progress (taskDistributor size Task) Undisturbed where
  counts := isStepOf i
  delays := isInplaceOf i
  goal := isExecutedOf i
  inv r s := WorkersOk s ∧ s.m_exit = false ∧ r ≤ (s.waiting i).length
  left r s := stepsLeft r (s.m_bqueForTask i) (pcOf s.threads i)
  left_pos _ hr := stepsLeft_pos hr _ _
  step := by
    rintro r s a s' es ⟨hok, hexit, hr⟩ ha hs hgoal
    obtain ⟨hexit', hleft⟩ := stepsLeft_step hok hexit ha hs hr hgoal
    have hwaiting := congrArg List.length (waiting_step hok.dist ha.startOnce hs i)
    rw [List.length_append, List.length_append, length_executed] at hwaiting
    exact ⟨⟨workersOk_step hok ha.startOnce hs, hexit', by omega⟩, hleft⟩

theorem follows_replay (h : DistOk s) (hno : ∀ a ∈ as, Undisturbed a)
    (hr : (taskDistributor size Task).replay s as = some (s', tr)) : Follows s tr s' := by
  induction as using List.reverseRecOn generalizing s' tr with
  | nil =>
    cases hr
    exact ⟨h, .refl⟩
  | append_singleton as b ih =>
    obtain ⟨s₁, tr₁, es, hr₁, hs, rfl⟩ := Machine.replay_snoc.mp hr
    obtain ⟨h₁, hsteps⟩ := ih (fun a ha => hno a (List.mem_append_left _ ha)) hr₁
    obtain ⟨h', hstep⟩ := taskDistributor_step h₁ (hno b (by simp)).startOnce hs
    rw [Follows, List.flatMap_append]
    exact ⟨h', hsteps.trans hstep⟩

/-- What was pending begins before what is accepted later. -/
theorem waiting_replay (h : DistOk s) (hno : ∀ a ∈ as, Undisturbed a)
    (hr : (taskDistributor size Task).replay s as = some (s', tr)) :
    s.waiting i ++ accepted i tr = executed i.val tr ++ s'.waiting i := by
  have hconserve := channels_conserve (follows_replay h hno hr).2 i
  rwa [puts_distObs, gots_distObs] at hconserve

end

theorem pending_tasks_begin {s s' : TaskDistributor size Task}
    (hrun : (taskDistributor size Task).RunIf StartOnce tr₀ s) (hexit : s.m_exit = false)
    (hr : (taskDistributor size Task).replay s as = some (s', tr))
    (hno : ∀ a ∈ as, Undisturbed a) (i : Fin (mSize size)) (hn : n ≤ (s.waiting i).length)
    (henough : 2 * n + 8 + (s.frames i).length + tr.countP (isInplaceOf i) ≤ as.countP (isStepOf i)) :
    (s.waiting i).take n <+: executed i.val tr := by
  have hok := workersOk_run hrun
  have hleft := stepsLeft_le n (s.m_bqueForTask i) (pcOf s.threads i)
  have hbegun := (workerProgress size Task i).reached ⟨hok, hexit, hn⟩ hno hr
    (Nat.le_trans (Nat.add_le_add_right hleft _) henough)
  rw [show (workerProgress size Task i).goal = isExecutedOf i from rfl, ← length_executed] at hbegun
  have horder := waiting_replay (i := i) hok.dist hno hr
  refine ⟨(executed i.val tr).drop n, ?_⟩
  have htake := congrArg (List.take n) horder
  rw [List.take_append_of_le_length hn, List.take_append_of_le_length hbegun] at htake
  rw [htake, List.take_append_drop]

theorem pending_tasks_begin_one : ∃ s s' tr, (taskDistributor 1 Nat).RunIf StartOnce [.accepted (.external 0)
      (queueIndex 1 0) 7] s ∧ (taskDistributor 1 Nat).replay s (.worker 0 :: .worker 0 ::
        .addTask (.external 0) (some 8) 0 :: .pushBack (.external 0) :: List.replicate 8 (.worker 0)) = some (s', tr) ∧
    [7] <+: executed 0 tr := by
  have hstarted : (((taskDistributor 1 Nat).only StartOnce).replay (TaskDistributor.new 1 Nat)
      [.start, .control, .control, .addTask (.external 0) (some 7) 0, .pushBack (.external 0)]).isSome := rfl
  have hrun := Machine.steps_of_replay_only (Option.some_get hstarted).symm
  have hr : ((taskDistributor 1 Nat).replay (Option.get _ hstarted).1 (.worker 0 :: .worker 0 ::
      .addTask (.external 0) (some 8) 0 :: .pushBack (.external 0) :: List.replicate 8 (.worker 0))).isSome := rfl
  exact ⟨_, _, _, hrun, (Option.some_get hr).symm, pending_tasks_begin (n := 1) hrun rfl (Option.some_get hr).symm
    (by simp [Undisturbed]) (queueIndex 1 0) (Nat.le_refl 1) (Nat.le_refl 10)⟩

end Andren.Network
