import Andren.Base.TimerDeadlines

/-!
# Moving a timer manager

A `TimerManger` has two members, the heap and the function that reads the clock.
Its move constructor, its move assignment and `swap` transfer the heap alone. So
the receiver goes on as the original would have exactly when it is not a new
object and already reads the same clock (`transfer_preserves_iff`); a call that
reads the clock throws on an object that was move constructed.
-/

namespace Andren.Base

open Machines

section

variable {heap : MinHeapTy (BitVec 64) Timer} {C : Type}

/-- The members. `C` are the clocks; a `std::function` reads one or is empty. -/
structure TimerMangerObj (heap : MinHeapTy (BitVec 64) Timer) (C : Type) where
  m_minHeap : heap.Heap
  m_msecFunc : Option C

inductive TimerThrow
  | badFunctionCall
  | badOptionalAccess
  /-- `throw "Cannot Exec!!"`. -/
  | cannotExec
  deriving DecidableEq

/-- `ret` is what the task of the pair returns when `proxy_exec` runs it. What a
task itself calls comes before its `proxyExec`. -/
inductive TimerCall
  | createTask (msec : BitVec 64) (task : TimerTask)
  | check
  | proxyExec (pair : TimerPair) (ret : Bool)

structure TimedCall (C : Type) where
  call : TimerCall
  now : C → BitVec 64

namespace TimerMangerObj

abbrev Answer := Except TimerThrow (List TimerPair)

def createTask (m : TimerMangerObj heap C) (now : C → BitVec 64) (msec : BitVec 64) (task : TimerTask) :
    TimerMangerObj heap C × Answer :=
  match m.m_msecFunc with
  | none => (m, .error .badFunctionCall)
  | some clock => ({ m with m_minHeap := TimerManger.createTask m.m_minHeap msec task (now clock) }, .ok [])

def check (m : TimerMangerObj heap C) (now : C → BitVec 64) : TimerMangerObj heap C × Answer :=
  match m.m_msecFunc with
  | none => (m, .error .badFunctionCall)
  | some clock => match TimerManger.check m.m_minHeap (now clock) with
    | none => (m, .error .badOptionalAccess)
    | some (h, waitList) => ({ m with m_minHeap := h }, .ok waitList)

def proxyExec (m : TimerMangerObj heap C) (now : C → BitVec 64) (pair : TimerPair) (ret : Bool) :
    TimerMangerObj heap C × Answer :=
  match taskOf pair with
  | none => (m, .error .cannotExec)
  | some _ => if ret then m.createTask now pair.m_val.m_key (taskOf pair) else (m, .ok [])

def run (m : TimerMangerObj heap C) (c : TimedCall C) : TimerMangerObj heap C × Answer :=
  match c.call with
  | .createTask msec task => m.createTask c.now msec task
  | .check => m.check c.now
  | .proxyExec pair ret => m.proxyExec c.now pair ret

def answers (m : TimerMangerObj heap C) : List (TimedCall C) → List Answer
  | [] => []
  | c :: calls => (m.run c).2 :: (m.run c).1.answers calls

end TimerMangerObj

inductive Transfer
  | construct
  | assign
  | swap
  deriving DecidableEq

/-- The receiver and the original after the transfer. What `construct` makes has
no members of its own before; a heap that was moved from is empty. -/
def TimerMangerObj.transfer (receiver original : TimerMangerObj heap C) :
    Transfer → TimerMangerObj heap C × TimerMangerObj heap C
  | .construct => (⟨original.m_minHeap, none⟩, { original with m_minHeap := heap.new })
  | .assign => ({ receiver with m_minHeap := original.m_minHeap }, { original with m_minHeap := heap.new })
  | .swap => ({ receiver with m_minHeap := original.m_minHeap }, { original with m_minHeap := receiver.m_minHeap })

def TimerMangerObj.Reached (m : TimerMangerObj heap C) : Prop := ∃ tr, (queue heap.ops).Run tr m.m_minHeap

/-- `receiver` answers every sequence of calls as `original` does, and throws
nothing but what `proxy_exec` throws at an empty task. -/
def Preserves (receiver original : TimerMangerObj heap C) : Prop :=
  ∀ calls, receiver.answers calls = original.answers calls ∧
    ∀ e, .error e ∈ receiver.answers calls → e = .cannotExec

variable {m receiver original : TimerMangerObj heap C}

theorem TimerMangerObj.m_msecFunc_run (m : TimerMangerObj heap C) (c : TimedCall C) :
    (m.run c).1.m_msecFunc = m.m_msecFunc := by
  obtain ⟨call, now⟩ := c
  have hcreate : ∀ msec task, (m.createTask now msec task).1.m_msecFunc = m.m_msecFunc := by
    intro msec task
    unfold createTask
    split <;> rfl
  cases call with
  | createTask msec task => exact hcreate msec task
  | check =>
    show (m.check now).1.m_msecFunc = _
    unfold check
    split
    · rfl
    · split <;> rfl
  | proxyExec pair ret =>
    show (m.proxyExec now pair ret).1.m_msecFunc = _
    unfold proxyExec
    split
    · rfl
    · split
      · exact hcreate _ _
      · rfl

theorem TimerMangerObj.run_throws (hclock : m.m_msecFunc = some clock) (c : TimedCall C)
    (h : (m.run c).2 = .error e) : e = .cannotExec := by
  obtain ⟨call, now⟩ := c
  cases call with
  | createTask msec task => simp [run, createTask, hclock] at h
  | check =>
    obtain ⟨h', waitList, hcheck, -⟩ :=
      checkLoop_done (now clock) [] (Nat.le_refl (heap.size m.m_minHeap))
    simp [run, check, hclock, TimerManger.check, hcheck] at h
  | proxyExec pair ret =>
    simp only [run, proxyExec] at h
    split at h
    · cases h
      rfl
    · cases ret <;> simp [createTask, hclock] at h

theorem TimerMangerObj.answers_throw (hclock : m.m_msecFunc = some clock) (calls : List (TimedCall C))
    (h : .error e ∈ m.answers calls) : e = .cannotExec := by
  induction calls generalizing m with
  | nil => cases h
  | cons c calls ih =>
    rcases List.mem_cons.mp h with h | h
    · exact run_throws hclock c h.symm
    · exact ih ((m.m_msecFunc_run c).trans hclock) h

theorem TimerMangerObj.m_minHeap_transfer (op : Transfer) :
    (receiver.transfer original op).1.m_minHeap = original.m_minHeap := by
  cases op <;> rfl

theorem Preserves.has_clock (h : Preserves receiver original) : receiver.m_msecFunc.isSome := by
  cases hclock : receiver.m_msecFunc with
  | some => rfl
  | none =>
    have hthrow := (h [⟨.check, fun _ => 0⟩]).2 .badFunctionCall
    simp [TimerMangerObj.answers, TimerMangerObj.run, TimerMangerObj.check, hclock] at hthrow

/-- Two managers with one heap and different clocks: a timer that is due by the
one clock is not by the other. -/
theorem Preserves.same_clock {ok : heap.Heap → Prop} (hlawful : Lawful heap.ops ByKey ok heap.pairs)
    (hok : ok original.m_minHeap) (hheap : receiver.m_minHeap = original.m_minHeap)
    (hreceiver : receiver.m_msecFunc = some clock) (horiginal : original.m_msecFunc = some clock')
    (h : Preserves receiver original) : clock = clock' := by
  classical
  by_contra hne
  have hok₁ : ok (TimerManger.createTask original.m_minHeap 1 (some 0) 0) :=
    hlawful.push_ok (x := timerPair 1 0 (some 0)) hok
  obtain ⟨_, due, hdue, -, hperm, -, -⟩ := check_splits hlawful hok₁ 1
  obtain ⟨_, due', hdue', -, hperm', -, -⟩ := check_splits hlawful hok₁ 0
  have hanswers := (h [⟨.createTask 1 (some 0), fun _ => 0⟩, ⟨.check, fun c => if c = clock then 1 else 0⟩]).1
  simp only [TimerMangerObj.answers, TimerMangerObj.run, TimerMangerObj.createTask, TimerMangerObj.check,
    hreceiver, horiginal, hheap, if_true, if_neg (Ne.symm hne), hdue, hdue', List.cons.injEq, Except.ok.injEq]
    at hanswers
  have hmem : timerPair 1 0 (some 0) ∈ due := by
    refine hperm.mem_iff.mpr (List.mem_filter.mpr ⟨?_, rfl⟩)
    exact (heap.pairs_push _ _ _).mem_iff.mpr (.head _)
  rw [hanswers.2.1] at hmem
  have hlate := (List.mem_filter.mp (hperm'.mem_iff.mp hmem)).2
  exact absurd hlate (by decide)

end

/-- Over either heap, for every manager with a clock: after a move or a swap the
receiver answers as the original would have, and throws no more, if and only if
it is not a new object and reads the original's clock already. -/
theorem transfer_preserves_iff (heap : MinHeapTy (BitVec 64) Timer) (hheap : heap ∈ timerHeaps) (C : Type)
    (receiver original : TimerMangerObj heap C) (clock : C) (hclock : original.m_msecFunc = some clock)
    (hreached : original.Reached) (op : Transfer) :
    Preserves (receiver.transfer original op).1 original ↔
      op ≠ .construct ∧ receiver.m_msecFunc = some clock := by
  obtain ⟨ok, hlawful⟩ := timerHeaps_lawful hheap
  obtain ⟨tr, hrun⟩ := hreached
  have hok : ok original.m_minHeap := (hlawful.run hrun).1
  constructor
  · intro h
    obtain ⟨clock', hclock'⟩ := Option.isSome_iff_exists.mp h.has_clock
    have hsame := h.same_clock hlawful hok (TimerMangerObj.m_minHeap_transfer op) hclock' hclock
    subst hsame
    cases op with
    | construct => cases hclock'
    | assign | swap => exact ⟨nofun, hclock'⟩
  · rintro ⟨hop, hsame⟩ calls
    have heq : (receiver.transfer original op).1 = original := by
      obtain ⟨h, clock'⟩ := original
      cases op with
      | construct => exact absurd rfl hop
      | assign | swap => exact congrArg (TimerMangerObj.mk h) (hsame.trans hclock.symm)
    rw [heq]
    exact ⟨rfl, fun e he => TimerMangerObj.answers_throw hclock calls he⟩

theorem transfer_preserves_iff_assigned :
    ∃ receiver original : TimerMangerObj (fourWayHeap (BitVec 64) Timer) Unit,
      receiver.m_minHeap.m_data = #[] ∧ original.m_minHeap.m_data = #[timerPair 5 2 (some 0)] ∧
        Preserves (receiver.transfer original .assign).1 original := by
  have hr : ((queue (fourWayHeap (BitVec 64) Timer).ops).replay (fourWayHeap (BitVec 64) Timer).ops.new
      [.push (timerPair 5 2 (some 0))]).isSome := rfl
  have hrun := Machine.steps_of_replay (Option.some_get hr).symm
  exact ⟨⟨⟨#[]⟩, some ()⟩, ⟨_, some ()⟩, rfl, rfl,
    (transfer_preserves_iff _ (.tail _ (.head _)) Unit ⟨⟨#[]⟩, some ()⟩ ⟨_, some ()⟩ () rfl ⟨_, hrun⟩ .assign).mpr
      ⟨nofun, rfl⟩⟩

/-- A manager is move constructed from one with a clock; `create_task` throws. -/
theorem constructed_manger_throws : ∃ receiver original : TimerMangerObj (binaryHeap (BitVec 64) Timer) Unit,
    original.Reached ∧ original.m_msecFunc = some () ∧
      original.answers [⟨.createTask 5 (some 0), fun _ => 2⟩] = [.ok []] ∧
      (receiver.transfer original .construct).1.answers [⟨.createTask 5 (some 0), fun _ => 2⟩] =
        [.error .badFunctionCall] :=
  ⟨⟨⟨#[]⟩, none⟩, ⟨⟨#[]⟩, some ()⟩, ⟨[], .refl⟩, rfl, rfl, rfl⟩

end Andren.Base
