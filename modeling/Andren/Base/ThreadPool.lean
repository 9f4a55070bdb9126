import Andren.Machine.Channel
import Mathlib.Data.List.Perm.Basic

/-!
# The thread pools

`ThreadPool` and `ThreadPoolPortable` keep a queue under a mutex for each
worker. `exec` enqueues; a worker moves the whole queue out under the mutex,
runs the batch without it and takes it again before it looks at the queue and
then at `isExit`.

`loopStep_ok` says what one step of a worker does: it begins the oldest task
that waits, and it leaves only an empty queue. With it a pool refines one
channel for each worker.
-/

namespace Andren.Base

open Machines

variable {Task : Type}

open scoped List

/-- `perthread_data_t`; `locked` tells whether the worker holds the mutex. -/
structure PerThread (Task : Type) where
  locked : Bool
  tasks : List Task

inductive PoolPc (Task : Type)
  | lock
  | test
  | testExit
  | unlock (tasks : List Task)
  | run (tasks : List Task)
  /-- Inside the front task, which is not popped yet. -/
  | inTask (rest : List Task)
  | wait (msec : Nat)
  | returned

/-- The next step of a worker that waits `msec` when it is idle, with the task
it begins to run if any. Both the wait and the return release the mutex. -/
def loopStep (msec : Nat) (isExit : Bool) (p : PerThread Task) :
    PoolPc Task → Option (PerThread Task × PoolPc Task × List Task)
  | .lock => if p.locked then none else some ({ p with locked := true }, .test, [])
  | .test =>
    if p.tasks.isEmpty then some (p, .testExit, [])
    else some ({ p with tasks := [] }, .unlock p.tasks, [])
  | .testExit =>
    if isExit then some ({ p with locked := false }, .returned, [])
    else some ({ p with locked := false }, .wait msec, [])
  | .unlock tasks => some ({ p with locked := false }, .run tasks, [])
  | .run [] => some (p, .lock, [])
  | .run (task :: rest) => some (p, .inTask rest, [task])
  | .inTask rest => some (p, .run rest, [])
  | .wait _ => some (p, .lock, [])
  | .returned => none

def PoolPc.batch : PoolPc Task → List Task
  | .unlock tasks | .run tasks | .inTask tasks => tasks
  | _ => []

def PoolPc.holds : PoolPc Task → Bool
  | .test | .testExit | .unlock _ => true
  | _ => false

def toRun (p : PerThread Task) (pc : PoolPc Task) : List Task := pc.batch ++ p.tasks

structure LoopOk (isExit : Bool) (p : PerThread Task) (pc : PoolPc Task) : Prop where
  mutex : p.locked = pc.holds
  empty : pc = .testExit ∨ pc = .returned → p.tasks = []
  exit : pc = .returned → isExit = true

theorem loopStep_ok (hok : LoopOk isExit p pc) (h : loopStep msec isExit p pc = some (p', pc', ts)) :
    LoopOk isExit p' pc' ∧ toRun p pc = ts ++ toRun p' pc' := by
  cases pc with
  | lock =>
    obtain ⟨-, h⟩ := Option.ite_none_left_eq_some.mp h
    cases h
    exact ⟨⟨rfl, by simp, by simp⟩, rfl⟩
  | test =>
    simp only [loopStep] at h
    split at h <;> cases h
    · rename_i hempty
      exact ⟨⟨hok.mutex, fun _ => by simpa using hempty, by simp⟩, rfl⟩
    · exact ⟨⟨hok.mutex, by simp, by simp⟩, by simp [toRun, PoolPc.batch]⟩
  | testExit =>
    simp only [loopStep] at h
    split at h <;> cases h
    · rename_i hexit
      exact ⟨⟨rfl, fun _ => hok.empty (.inl rfl), fun _ => hexit⟩, rfl⟩
    · exact ⟨⟨rfl, by simp, by simp⟩, rfl⟩
  | unlock tasks =>
    cases h
    exact ⟨⟨rfl, by simp, by simp⟩, rfl⟩
  | run tasks =>
    cases tasks <;> cases h <;> exact ⟨⟨hok.mutex, by simp, by simp⟩, rfl⟩
  | inTask rest =>
    cases h
    exact ⟨⟨hok.mutex, by simp, by simp⟩, rfl⟩
  | wait msec =>
    cases h
    exact ⟨⟨hok.mutex, by simp, by simp⟩, rfl⟩
  | returned => cases h

-- ---------------------------------------------------------------------------
-- The pool
-- ---------------------------------------------------------------------------

/-- A call of `exec` past its test; `enqueued` tells whether it has been through
its critical section. -/
structure ExecCall (n : Nat) (Task : Type) where
  threadno : Fin n
  task : Task
  enqueued : Bool

structure Pool (n : Nat) (Task : Type) where
  isExit : Bool
  perthread : Fin n → PerThread Task
  loops : Fin n → PoolPc Task
  calls : List (ExecCall n Task)

inductive PoolAct (Task : Type)
  | exec (task : Task) (threadno : Nat)
  /-- Call number `k` goes through its critical section. -/
  | emplace (k : Nat)
  | ret (k : Nat)
  | loop (i : Nat)
  | destroy

inductive PoolEv (n : Nat) (Task : Type)
  | refused (threadno : Nat)
  | enqueued (i : Fin n) (task : Task)
  | returnedTrue (i : Fin n) (task : Task)
  | executed (i : Fin n) (task : Task)

/-- A pool of `n` workers and any number of threads that call it. The section
of `exec` under the mutex is one access, so it is one step, taken while the
worker does not hold the mutex. -/
def pool (msec n : Nat) (Task : Type) : Machine (Pool n Task) (PoolAct Task) (PoolEv n Task) where
  init := ⟨false, fun _ => ⟨false, []⟩, fun _ => .lock, []⟩
  step s
    | .exec task threadno =>
      if h : threadno < n then
        if s.isExit then some (s, [.refused threadno])
        else some ({ s with calls := s.calls ++ [⟨⟨threadno, h⟩, task, false⟩] }, [])
      else some (s, [.refused threadno])
    | .emplace k => match s.calls[k]? with
      | some ⟨i, task, false⟩ =>
        let p := s.perthread i
        if p.locked then none
        else some ({ s with
          perthread := Function.update s.perthread i { p with tasks := p.tasks ++ [task] }
          calls := s.calls.set k ⟨i, task, true⟩ }, [.enqueued i task])
      | _ => none
    | .ret k => match s.calls[k]? with
      | some ⟨i, task, true⟩ => some ({ s with calls := s.calls.eraseIdx k }, [.returnedTrue i task])
      | _ => none
    | .loop i =>
      if h : i < n then do
        let (p, pc, ts) ← loopStep msec s.isExit (s.perthread ⟨i, h⟩) (s.loops ⟨i, h⟩)
        pure ({ s with
          perthread := Function.update s.perthread ⟨i, h⟩ p
          loops := Function.update s.loops ⟨i, h⟩ pc }, ts.map (.executed ⟨i, h⟩))
      else none
    | .destroy => some ({ s with isExit := true }, [])

def ThreadPool (n : Nat) (Task : Type) := pool 10 n Task

def ThreadPoolPortable (n : Nat) (Task : Type) := pool 5 n Task

/-- The destructor runs after every `exec` has returned, and none is called on
a destroyed pool. -/
def Orderly (s : Pool n Task) : PoolAct Task → Prop
  | .exec .. => s.isExit = false
  | .destroy => s.calls = []
  | _ => True

-- ---------------------------------------------------------------------------
-- One channel for each worker
-- ---------------------------------------------------------------------------

section

variable {n : Nat}

def Pool.toRun (s : Pool n Task) (i : Fin n) : List Task :=
  Base.toRun (s.perthread i) (s.loops i)

structure PoolOk (s : Pool n Task) : Prop where
  loop : ∀ i, LoopOk s.isExit (s.perthread i) (s.loops i)
  calls : s.isExit = true → s.calls = []

def PoolEv.obs : PoolEv n Task → List (ChanEv (Fin n) Task)
  | .refused _ | .returnedTrue .. => []
  | .enqueued i t => [.put i t]
  | .executed i t => [.got i t]

theorem LoopOk.enqueue (h : LoopOk false p pc) (hlocked : p.locked = false) (t : Task) :
    LoopOk false { p with tasks := p.tasks ++ [t] } pc := by
  refine ⟨h.mutex, ?_, h.exit⟩
  rintro (rfl | rfl)
  · cases hlocked.symm.trans h.mutex
  · cases h.exit rfl

theorem toRun_enqueue (p : PerThread Task) (pc : PoolPc Task) (t : Task) :
    toRun { p with tasks := p.tasks ++ [t] } pc = toRun p pc ++ [t] := by
  simp [toRun]

theorem executed_poolObs (i : Fin n) (ts : List Task) :
    (ts.map (PoolEv.executed i)).flatMap PoolEv.obs = ts.map (.got i) := by
  induction ts with
  | nil => rfl
  | cons t ts ih => simp [PoolEv.obs, ih]

theorem pool_step {s s' : Pool n Task} (h : PoolOk s) (hok : Orderly s a)
    (hs : (pool msec n Task).step s a = some (s', es)) :
    PoolOk s' ∧ (channels (Fin n) Task).Steps Machine.anyStep s.toRun (es.flatMap PoolEv.obs)
      s'.toRun := by
  cases a with
  | exec task threadno =>
    have hexit : s.isExit = false := hok
    simp only [pool, hexit] at hs
    split at hs <;> cases hs
    · refine ⟨⟨hexit ▸ h.loop, ?_⟩, .refl⟩
      intro hexit'
      cases hexit'
    · exact ⟨h, .refl⟩
  | emplace k =>
    simp only [pool] at hs
    split at hs
    · rename_i i task hk
      obtain ⟨hlocked, hs⟩ := Option.ite_none_left_eq_some.mp hs
      cases hs
      have hexit : s.isExit = false := by
        rw [Bool.eq_false_iff]
        intro hexit
        rw [h.calls hexit] at hk
        cases hk
      have hloop := h.loop i
      rw [hexit] at hloop
      refine ⟨⟨?_, ?_⟩, ?_⟩
      · intro j
        rcases eq_or_ne j i with rfl | hne
        · simp only [Function.update_self, hexit]
          exact hloop.enqueue (Bool.eq_false_iff.mpr hlocked) task
        · simpa only [Function.update_of_ne hne] using h.loop j
      · intro hexit'
        rw [hexit] at hexit'
        cases hexit'
      · rw [show [PoolEv.enqueued i task].flatMap PoolEv.obs = [.put i task] from rfl]
        convert channels_put s.toRun i task using 1
        funext j
        rcases eq_or_ne j i with rfl | hne
        · simp only [Pool.toRun, Function.update_self, toRun_enqueue]
        · simp only [Pool.toRun, Function.update_of_ne hne]
    · cases hs
  | ret k =>
    simp only [pool] at hs
    split at hs
    · cases hs
      refine ⟨⟨h.loop, ?_⟩, .refl⟩
      intro hexit
      simp [h.calls hexit]
    · cases hs
  | loop i =>
    simp only [pool] at hs
    split at hs
    · rename_i hi
      simp only [Option.bind_eq_bind, Option.bind_eq_some_iff] at hs
      obtain ⟨⟨p, pc, ts⟩, hstep, hs⟩ := hs
      cases hs
      obtain ⟨hloop, hrun⟩ := loopStep_ok (h.loop ⟨i, hi⟩) hstep
      refine ⟨⟨?_, h.calls⟩, ?_⟩
      · intro j
        rcases eq_or_ne j ⟨i, hi⟩ with rfl | hne
        · simpa only [Function.update_self] using hloop
        · simpa only [Function.update_of_ne hne] using h.loop j
      · rw [executed_poolObs]
        convert channels_gets (q := s.toRun) hrun using 1
        funext j
        rcases eq_or_ne j ⟨i, hi⟩ with rfl | hne
        · simp only [Pool.toRun, Function.update_self]
        · simp only [Pool.toRun, Function.update_of_ne hne]
    · cases hs
  | destroy =>
    cases hs
    refine ⟨⟨?_, fun _ => hok⟩, .refl⟩
    intro i
    obtain ⟨hmutex, hempty, -⟩ := h.loop i
    exact ⟨hmutex, hempty, fun _ => rfl⟩

theorem poolOk_init (msec n : Nat) (Task : Type) : PoolOk (pool msec n Task).init :=
  ⟨fun _ => ⟨rfl, fun _ => rfl, nofun⟩, nofun⟩

def pool_refines (msec n : Nat) (Task : Type) :
    Refinement (pool msec n Task) (channels (Fin n) Task) Orderly where
  obs := PoolEv.obs
  abs := Pool.toRun
  inv := PoolOk
  init_inv := poolOk_init msec n Task
  init_abs := rfl
  step_inv h hok hs := (pool_step h hok hs).1
  step_abs h hok hs := (pool_step h hok hs).2

-- ---------------------------------------------------------------------------
-- What a destroyed pool has run
-- ---------------------------------------------------------------------------

namespace Pool

def enqueued (i : Fin n) : List (PoolEv n Task) → List Task
  | [] => []
  | .enqueued j t :: tr => if j = i then t :: enqueued i tr else enqueued i tr
  | _ :: tr => enqueued i tr

def returnedTrue (i : Fin n) : List (PoolEv n Task) → List Task
  | [] => []
  | .returnedTrue j t :: tr => if j = i then t :: returnedTrue i tr else returnedTrue i tr
  | _ :: tr => returnedTrue i tr

def executed (i : Fin n) : List (PoolEv n Task) → List Task
  | [] => []
  | .executed j t :: tr => if j = i then t :: executed i tr else executed i tr
  | _ :: tr => executed i tr

end Pool

theorem puts_poolObs (i : Fin n) (tr : List (PoolEv n Task)) :
    puts i (tr.flatMap PoolEv.obs) = Pool.enqueued i tr := by
  induction tr with
  | nil => rfl
  | cons e tr ih =>
    rw [List.flatMap_cons, puts_append, ih]
    cases e with
    | enqueued j t =>
      simp only [PoolEv.obs, puts, Pool.enqueued]
      split <;> rfl
    | _ => rfl

theorem gots_poolObs (i : Fin n) (tr : List (PoolEv n Task)) :
    gots i (tr.flatMap PoolEv.obs) = Pool.executed i tr := by
  induction tr with
  | nil => rfl
  | cons e tr ih =>
    rw [List.flatMap_cons, gots_append, ih]
    cases e with
    | executed j t =>
      simp only [PoolEv.obs, gots, Pool.executed]
      split <;> rfl
    | _ => rfl

theorem enqueued_eq (h : (pool msec n Task).RunIf Orderly tr s) (i : Fin n) :
    Pool.enqueued i tr = Pool.executed i tr ++ s.toRun i := by
  have hfifo := channels_fifo ((pool_refines msec n Task).run h) i
  rwa [show (pool_refines msec n Task).obs = PoolEv.obs from rfl, puts_poolObs, gots_poolObs]
    at hfifo

theorem enqueued_append (i : Fin n) (tr tr' : List (PoolEv n Task)) :
    Pool.enqueued i (tr ++ tr') = Pool.enqueued i tr ++ Pool.enqueued i tr' := by
  simp only [← puts_poolObs, List.flatMap_append, puts_append]

theorem returnedTrue_append (i : Fin n) (tr tr' : List (PoolEv n Task)) :
    Pool.returnedTrue i (tr ++ tr') = Pool.returnedTrue i tr ++ Pool.returnedTrue i tr' := by
  induction tr with
  | nil => rfl
  | cons e tr ih => cases e <;> simp only [List.cons_append, Pool.returnedTrue, ih]; split <;> rfl

def ExecCall.unreturned (i : Fin n) (c : ExecCall n Task) : List Task :=
  if c.enqueued = true ∧ c.threadno = i then [c.task] else []

def unreturned (i : Fin n) (calls : List (ExecCall n Task)) : List Task :=
  calls.flatMap (ExecCall.unreturned i)

theorem unreturned_eraseIdx {calls : List (ExecCall n Task)} (h : calls[k]? = some c) (i : Fin n) :
    (unreturned i calls).Perm (c.unreturned i ++ unreturned i (calls.eraseIdx k)) := by
  obtain ⟨hk, rfl⟩ := List.getElem?_eq_some_iff.mp h
  exact (List.getElem_cons_eraseIdx_perm hk).symm.flatMap_right _

theorem unreturned_set {calls : List (ExecCall n Task)} (h : calls[k]? = some c)
    (hc : c.unreturned i = []) (c' : ExecCall n Task) :
    (unreturned i (calls.set k c')).Perm (c'.unreturned i ++ unreturned i calls) := by
  obtain ⟨hk, -⟩ := List.getElem?_eq_some_iff.mp h
  have herase := unreturned_eraseIdx h i
  rw [hc, List.nil_append] at herase
  exact ((List.set_perm_cons_eraseIdx hk c').flatMap_right _).trans (herase.symm.append_left _)

theorem executed_events (i j : Fin n) (ts : List Task) :
    Pool.enqueued i (ts.map (PoolEv.executed j)) = [] ∧
      Pool.returnedTrue i (ts.map (PoolEv.executed j)) = [] := by
  induction ts with
  | nil => exact ⟨rfl, rfl⟩
  | cons t ts ih => exact ih

theorem enqueued_perm (h : (pool msec n Task).RunIf ok tr s) (i : Fin n) :
    (Pool.enqueued i tr).Perm (Pool.returnedTrue i tr ++ unreturned i s.calls) := by
  refine h.invariant
    (I := fun tr s => (Pool.enqueued i tr).Perm (Pool.returnedTrue i tr ++ unreturned i s.calls))
    .rfl ?_
  intro tr s a s' es _ ih _ hs
  rw [enqueued_append, returnedTrue_append]
  have hrest {s' : Pool n Task} {es} (hcalls : unreturned i s'.calls = unreturned i s.calls)
      (henq : Pool.enqueued i es = []) (hret : Pool.returnedTrue i es = []) :
      (Pool.enqueued i tr ++ Pool.enqueued i es).Perm
        (Pool.returnedTrue i tr ++ Pool.returnedTrue i es ++ unreturned i s'.calls) := by
    simpa only [hcalls, henq, hret, List.append_nil] using ih
  cases a with
  | exec task threadno =>
    simp only [pool] at hs
    split at hs
    · split at hs <;> cases hs
      · exact hrest rfl rfl rfl
      · exact hrest (by simp [unreturned, ExecCall.unreturned]) rfl rfl
    · cases hs
      exact hrest rfl rfl rfl
  | emplace k =>
    simp only [pool] at hs
    split at hs
    · rename_i j task hk
      obtain ⟨-, hs⟩ := Option.ite_none_left_eq_some.mp hs
      cases hs
      have hset := unreturned_set hk (i := i) (by simp [ExecCall.unreturned]) ⟨j, task, true⟩
      have hnew : Pool.enqueued i [.enqueued j task] = (⟨j, task, true⟩ : ExecCall n Task).unreturned i := by
        simp [Pool.enqueued, ExecCall.unreturned]
      rw [hnew, show Pool.returnedTrue i [.enqueued j task] = [] from rfl, List.append_nil]
      calc Pool.enqueued i tr ++ ExecCall.unreturned i ⟨j, task, true⟩
        _ ~ Pool.returnedTrue i tr ++ unreturned i s.calls ++ ExecCall.unreturned i ⟨j, task, true⟩ :=
          ih.append_right _
        _ = Pool.returnedTrue i tr ++ (unreturned i s.calls ++ ExecCall.unreturned i ⟨j, task, true⟩) :=
          List.append_assoc ..
        _ ~ Pool.returnedTrue i tr ++ (ExecCall.unreturned i ⟨j, task, true⟩ ++ unreturned i s.calls) :=
          List.perm_append_comm.append_left _
        _ ~ Pool.returnedTrue i tr ++ unreturned i (s.calls.set k ⟨j, task, true⟩) :=
          hset.symm.append_left _
    · cases hs
  | ret k =>
    simp only [pool] at hs
    split at hs
    · rename_i j task hk
      cases hs
      have herase := unreturned_eraseIdx hk i
      have hnew : Pool.returnedTrue i [.returnedTrue j task] =
          (⟨j, task, true⟩ : ExecCall n Task).unreturned i := by
        simp [Pool.returnedTrue, ExecCall.unreturned]
      rw [hnew, show Pool.enqueued i [.returnedTrue j task] = [] from rfl, List.append_nil,
        List.append_assoc]
      exact ih.trans (herase.append_left _)
    · cases hs
  | loop j =>
    simp only [pool] at hs
    split at hs
    · simp only [Option.bind_eq_bind, Option.bind_eq_some_iff] at hs
      obtain ⟨_, -, hs⟩ := hs
      cases hs
      exact hrest rfl (executed_events i _ _).1 (executed_events i _ _).2
    · cases hs
  | destroy =>
    cases hs
    exact hrest rfl rfl rfl

theorem drained (h : (pool msec n Task).RunIf Orderly tr s) (hi : s.loops i = .returned) :
    Pool.executed i tr = Pool.enqueued i tr ∧ Pool.enqueued i tr ~ Pool.returnedTrue i tr := by
  have hok : PoolOk s := (pool_refines msec n Task).run_inv h
  have hexit : s.isExit = true := (hok.loop i).exit hi
  have hempty : s.toRun i = [] := by
    simp [Pool.toRun, toRun, hi, PoolPc.batch, (hok.loop i).empty (.inr hi)]
  constructor
  · rw [enqueued_eq h, hempty, List.append_nil]
  · have hperm := enqueued_perm h i
    rwa [hok.calls hexit, unreturned, List.flatMap_nil, List.append_nil] at hperm

end

/-- A worker that has left its loop has run, each once and in the order they
were enqueued, the tasks for which `exec` returned true. -/
theorem destroyed_pool_drains (n : Nat) (Task : Type) :
    (∀ tr s, (ThreadPool n Task).RunIf Orderly tr s → ∀ i, s.loops i = .returned →
      Pool.executed i tr = Pool.enqueued i tr ∧ Pool.enqueued i tr ~ Pool.returnedTrue i tr) ∧
    ∀ tr s, (ThreadPoolPortable n Task).RunIf Orderly tr s → ∀ i, s.loops i = .returned →
      Pool.executed i tr = Pool.enqueued i tr ∧ Pool.enqueued i tr ~ Pool.returnedTrue i tr :=
  ⟨fun _ _ h _ hi => drained h hi, fun _ _ h _ hi => drained h hi⟩

instance (s : Pool n Task) : (a : PoolAct Task) → Decidable (Orderly s a)
  | .exec .. => inferInstanceAs (Decidable (s.isExit = false))
  | .destroy => decidable_of_iff (s.calls.isEmpty) List.isEmpty_iff
  | .emplace _ | .ret _ | .loop _ => .isTrue trivial

theorem destroyed_pool_drains_run : ∃ tr s, (ThreadPool 2 Nat).RunIf Orderly tr s ∧
    Pool.returnedTrue 1 tr = [20, 10] ∧ Pool.executed 1 tr = [10, 20] ∧
    Pool.executed 1 tr = Pool.enqueued 1 tr := by
  have hr : (((ThreadPool 2 Nat).only Orderly).replay (ThreadPool 2 Nat).init
      [.exec 10 1, .exec 20 1, .exec 30 2, .loop 1, .loop 1, .loop 1, .loop 1, .emplace 0, .loop 1,
        .loop 1, .loop 1, .loop 1, .emplace 1, .ret 1, .ret 0, .loop 1, .destroy, .loop 1, .loop 1,
        .loop 1, .loop 1, .loop 1, .loop 1, .loop 1, .loop 1, .loop 1, .loop 1]).isSome := rfl
  have hrun := Machine.steps_of_replay_only (Option.some_get hr).symm
  exact ⟨_, _, hrun, rfl, rfl, ((destroyed_pool_drains 2 Nat).1 _ _ hrun 1 rfl).1⟩

end Andren.Base
