import Andren.Network.TaskDistributor

/-!
# The chain of ticks

`RePoller::start` resets `m_shutdown` and queues a tick for the IO worker; a
tick queues its successor, unless it finds `m_shutdown` set. `stop` only sets
the flag, and `start` does not ask for a tick that is still there.

What goes on is counted in `chains`: the starts under way, the ticks queued and
the tick that has its test of the flag or the call for its successor ahead. Only
`start` adds to it.
-/

namespace Andren.Network

open Machines

inductive PollTask
  | tick
  /-- Any other task of the distributor. -/
  | other (id : Nat)
  deriving DecidableEq

inductive PollPc
  | idle
  | working
  /-- Before its test of `m_shutdown`. -/
  | worked
  /-- In its call of `workNextTick`. -/
  | next
  | finished
  deriving DecidableEq

structure TickLoop (size : Nat) where
  ev : TaskDistributor size PollTask
  m_shutdown : Bool
  tick : PollPc
  /-- The callers that are inside `start` and have reset the flag. -/
  starts : List Caller

inductive TickAct
  | start (c : Caller)
  /-- `workNextTick`, up to the queue's mutex. -/
  | workNextTick (c : Caller)
  | stop
  /-- `work` returns; it sets `m_shutdown` when its wait failed. -/
  | work (failed : Bool)
  | test
  | exec (a : DistAct PollTask)

namespace TickLoop

variable {size : Nat}

/-- `c` is about to add a tick, or is adding it. -/
def busy (s : TickLoop size) (c : Caller) : Bool :=
  s.starts.contains c || (c == .worker 0 && s.tick == .next)

def inTick (s : TickLoop size) (k : Nat) : Bool := (s.ev.frames k).head? == some .tick

def free (s : TickLoop size) (c : Caller) : Bool :=
  !s.busy c && match c with
    | .external _ => true
    | .worker k => !s.inTick k || s.tick == .working

/-- What the distributor does besides taking ticks. It is started once. -/
def allows (s : TickLoop size) : DistAct PollTask → Bool
  | .addTask c t _ | .addTaskOf c t _ _ | .addTaskASAP c t _ => s.free c && t != some .tick
  | .worker k => !s.busy (.worker k) && (!s.inTick k || s.tick == .finished)
  | .start => s.ev.m_tpool.isNone
  | .pushBack _ | .shutdown | .control => true

def added (s : TickLoop size) (c : Caller) : TickLoop size :=
  if s.starts.contains c then { s with starts := s.starts.erase c }
  else if s.busy c then { s with tick := .finished }
  else s

def note (s : TickLoop size) : DistEv size PollTask → TickLoop size
  | .accepted c _ .tick => s.added c
  | .executed _ .tick => { s with tick := .working }
  | _ => s

def run (s : TickLoop size) (a : DistAct PollTask) : Option (TickLoop size × List (DistEv size PollTask)) := do
  let (ev, es) ← (taskDistributor size PollTask).step s.ev a
  pure (es.foldl note { s with ev := ev }, es)

def leave (s : TickLoop size) (k : Nat) : TickLoop size :=
  if s.inTick k then { s with tick := .idle } else s

end TickLoop

/-- A poller on a distributor, and any number of threads that start and stop it. -/
def tickLoop (size : Nat) : Machine (TickLoop size) TickAct (DistEv size PollTask) where
  init := ⟨.new size PollTask, false, .idle, []⟩
  step s
    | .start c =>
      if s.ev.canCall c && s.free c then some ({ s with m_shutdown := false, starts := c :: s.starts }, [])
      else none
    | .workNextTick c =>
      if s.busy c then do
        let (s, es) ← s.run (.addTaskOf c (some .tick) .io 0)
        pure (if es.isEmpty then s else s.added c, es)
      else none
    | .stop => some ({ s with m_shutdown := true }, [])
    | .work failed =>
      if s.inTick 0 && s.tick == .working && s.ev.canCall (.worker 0) && s.free (.worker 0) then
        some ({ s with m_shutdown := s.m_shutdown || failed, tick := .worked }, [])
      else none
    | .test =>
      if s.inTick 0 && s.tick == .worked then
        some ({ s with tick := if s.m_shutdown then .finished else .next }, [])
      else none
    | .exec a =>
      if s.allows a then match a with
        | .worker k => (s.leave k).run (.worker k)
        | a => s.run a
      else none

-- ---------------------------------------------------------------------------
-- The ticks there are
-- ---------------------------------------------------------------------------

section

variable {size : Nat}

def PollPc.alive : PollPc → Bool
  | .working | .worked | .next => true
  | .idle | .finished => false

def ioQueue (size : Nat) : Fin (mSize size) := queueIndex size 0

def TickLoop.chains (s : TickLoop size) : Nat :=
  (s.ev.waiting (ioQueue size)).count .tick + s.starts.length + s.tick.alive.toNat

/-- One tick at most is queued or has something left to do, at the IO worker.
Besides a queued tick, one may run that has queued it and only returns. -/
structure OneTick (s : TickLoop size) : Prop where
  queue : ∀ i, .tick ∈ s.ev.waiting i → i = ioQueue size
  single : (s.ev.waiting (ioQueue size)).count .tick + s.tick.alive.toNat ≤ 1
  thread : ∀ k, .tick ∈ s.ev.frames k → k = 0
  running : (s.ev.frames 0).count .tick ≤ 1
  apart : .tick ∈ s.ev.waiting (ioQueue size) → .tick ∈ s.ev.frames 0 → s.tick = .finished

/-- `start` is called when there is no tick that has work to do or to queue. -/
def StartsEnded (s : TickLoop size) : TickAct → Prop
  | .start _ => s.chains = 0
  | _ => True

instance (s : TickLoop size) : DecidablePred (StartsEnded s)
  | .start _ => inferInstanceAs (Decidable (s.chains = 0))
  | .workNextTick _ | .stop | .work _ | .test | .exec _ => inferInstanceAs (Decidable True)

structure Chained (s : TickLoop size) : Prop where
  ev : Carries (· = .tick) (ioQueue size) s.ev
  frames : (s.ev.frames 0).count .tick = if s.tick = .idle then 0 else 1
  calls : ∀ c i, s.ev.calls c = some (i, .tick) → s.busy c = true
  chains : s.chains ≤ 1

theorem ioQueue_val (size : Nat) : (ioQueue size).val = 0 := queueIndex_zero size

theorem Chained.oneTick {s : TickLoop size} (h : Chained s) : OneTick s := by
  have hchains := h.chains
  unfold TickLoop.chains at hchains
  refine ⟨fun i hi => h.ev.waiting i _ hi rfl, by omega, ?_, ?_, ?_⟩
  · intro k hk
    rw [h.ev.frames k _ hk rfl, ioQueue_val]
  · rw [h.frames]
    split <;> decide
  · intro hqueued hruns
    have hone := List.count_pos_iff.mpr hqueued
    have hcount := List.count_pos_iff.mpr hruns
    rw [h.frames] at hcount
    cases hpc : s.tick with
    | finished => rfl
    | idle => simp [hpc] at hcount
    | working | worked | next =>
      rw [hpc] at hchains
      simp only [PollPc.alive, Bool.toNat_true] at hchains
      omega

theorem run_eq {s : TickLoop size} (hs : s.run a = some (s', es)) : ∃ ev,
    (taskDistributor size PollTask).step s.ev a = some (ev, es) ∧
      s' = es.foldl TickLoop.note { s with ev := ev } := by
  simp only [TickLoop.run, Option.bind_eq_bind, Option.bind_eq_some_iff] at hs
  obtain ⟨⟨ev, es⟩, hstep, hs⟩ := hs
  cases hs
  exact ⟨ev, hstep, rfl⟩

theorem Chained.keep {s : TickLoop size} {ev : TaskDistributor size PollTask} (h : Chained s)
    (hev : Carries (· = .tick) (ioQueue size) ev)
    (hwaiting : (ev.waiting (ioQueue size)).count .tick = (s.ev.waiting (ioQueue size)).count .tick)
    (hframes : (ev.frames 0).count .tick = (s.ev.frames 0).count .tick)
    (hcalls : ∀ c i, ev.calls c = some (i, .tick) → s.ev.calls c = some (i, .tick)) :
    Chained { s with ev := ev } where
  ev := hev
  frames := hframes.trans h.frames
  calls c i hcall := h.calls c i (hcalls c i hcall)
  chains := by
    unfold TickLoop.chains
    rw [hwaiting]
    exact h.chains

theorem added_ev (s : TickLoop size) (c : Caller) : (s.added c).ev = s.ev := by
  unfold TickLoop.added
  split
  · rfl
  · split <;> rfl

theorem added_count {s : TickLoop size} (h : s.busy c = true) :
    (s.added c).starts.length + (s.added c).tick.alive.toNat + 1 = s.starts.length + s.tick.alive.toNat := by
  unfold TickLoop.added
  split
  · rename_i hc
    have hmem := List.contains_iff_mem.mp hc
    have hlen := List.length_erase_of_mem hmem
    have hpos := List.length_pos_of_mem hmem
    dsimp only
    omega
  · rename_i hc
    unfold TickLoop.busy at h
    rw [Bool.eq_false_iff.mpr hc, Bool.false_or, Bool.and_eq_true_iff, beq_iff_eq, beq_iff_eq] at h
    rw [h.2]
    rfl

theorem added_busy {s : TickLoop size} (h : s.busy c' = true) (hne : c' ≠ c) : (s.added c).busy c' = true := by
  unfold TickLoop.added
  split
  · unfold TickLoop.busy at h ⊢
    rw [Bool.or_eq_true_iff] at h ⊢
    refine h.imp_left fun hmem => ?_
    rw [List.contains_iff_mem] at hmem ⊢
    exact (List.mem_erase_of_ne hne).mpr hmem
  · rename_i hc
    split
    · rename_i hbusy
      unfold TickLoop.busy at h hbusy ⊢
      rw [Bool.eq_false_iff.mpr hc, Bool.false_or, Bool.and_eq_true_iff, beq_iff_eq] at hbusy
      rw [Bool.or_eq_true_iff, Bool.and_eq_true_iff, beq_iff_eq] at h
      obtain hmem | ⟨rfl, -⟩ := h
      · simpa using hmem
      · exact (hne hbusy.1.symm).elim
    · exact h

theorem added_idle {s : TickLoop size} : (s.added c).tick = .idle ↔ s.tick = .idle := by
  unfold TickLoop.added
  split
  · rfl
  · rename_i hc
    split
    · rename_i hbusy
      unfold TickLoop.busy at hbusy
      rw [Bool.eq_false_iff.mpr hc, Bool.false_or, Bool.and_eq_true_iff, beq_iff_eq, beq_iff_eq] at hbusy
      simp [hbusy.2]
    · rfl

theorem Chained.added {s : TickLoop size} {ev : TaskDistributor size PollTask} (h : Chained s)
    (hbusy : s.busy c = true) (hev : Carries (· = .tick) (ioQueue size) ev)
    (hwaiting : (ev.waiting (ioQueue size)).count .tick ≤ (s.ev.waiting (ioQueue size)).count .tick + 1)
    (hframes : ev.frames = s.ev.frames)
    (hcalls : ∀ c' i, ev.calls c' = some (i, .tick) → c' ≠ c ∧ s.ev.calls c' = some (i, .tick)) :
    Chained ({ s with ev := ev }.added c) where
  ev := by rwa [added_ev]
  frames := by
    rw [added_ev, hframes, h.frames]
    simp only [added_idle]
  calls c' i hcall := by
    rw [added_ev] at hcall
    obtain ⟨hne, hold⟩ := hcalls c' i hcall
    exact added_busy (h.calls c' i hold) hne
  chains := by
    have hcount := added_count (s := { s with ev := ev }) hbusy
    have hchains := h.chains
    unfold TickLoop.chains at hchains ⊢
    rw [added_ev]
    dsimp only at hcount ⊢
    omega

theorem Chained.pushBack {s : TickLoop size} (h : Chained s)
    (hs : s.run (.pushBack c) = some (s', es)) : Chained s' := by
  obtain ⟨ev, hstep, rfl⟩ := run_eq hs
  have hok : StartOnce s.ev (.pushBack c) := trivial
  have hev := h.ev.step hok hstep nofun nofun
  have hwaiting := waiting_step h.ev.dist hok hstep
  obtain ⟨i, t, hcall, hcalls, hframes, rfl⟩ := calls_pushBack hstep
  have hold (c' i') (hcall' : ev.calls c' = some (i', PollTask.tick)) :
      c' ≠ c ∧ s.ev.calls c' = some (i', .tick) := by
    rw [hcalls, Function.update_apply] at hcall'
    split at hcall'
    · cases hcall'
    · rename_i hne
      exact ⟨hne, hcall'⟩
  have hqueue (j) : ev.waiting j = s.ev.waiting j ++ if i = j then [t] else [] := by
    have heq := hwaiting j
    simp only [Network.accepted, executed, List.nil_append] at heq
    exact heq.symm
  cases t with
  | other id =>
    refine h.keep hev ?_ (by rw [hframes]) fun c' i' hcall' => (hold c' i' hcall').2
    rw [hqueue, List.count_append]
    split <;> rfl
  | tick =>
    obtain rfl := h.ev.calls c i _ hcall rfl
    refine h.added (h.calls c _ hcall) hev ?_ hframes hold
    rw [hqueue, if_pos rfl, List.count_append]
    exact Nat.le_refl _

theorem begins_allowed {s : TickLoop size} (hallow : s.allows a = true) : ¬Begins c i .tick a := by
  rintro hbegins
  cases hbegins <;> simp [TickLoop.allows] at hallow

theorem Chained.exec {s : TickLoop size} (h : Chained s) (hallow : s.allows a = true)
    (hworker : ∀ k, a ≠ .worker k) (hs : s.run a = some (s', es)) : Chained s' := by
  have hrun := hs
  obtain ⟨ev, hstep, rfl⟩ := run_eq hs
  have hok : StartOnce s.ev a := by
    cases a with
    | start => exact Option.isNone_iff_eq_none.mp hallow
    | _ => trivial
  have hinplace (c t index) (ha : a = .addTaskASAP c (some t) index) : t ≠ .tick := by
    rintro rfl
    simp [ha, TickLoop.allows] at hallow
  have hev : Carries (· = .tick) (ioQueue size) ev := by
    refine h.ev.step hok hstep ?_ fun c t index ha ht => (hinplace c t index ha ht).elim
    rintro c i _ hbegins rfl
    exact (begins_allowed hallow hbegins).elim
  have hkeep (haccepted : ∀ c i, .accepted c i .tick ∉ es) : Chained { s with ev := ev } := by
    have hsame := copiesSame_of_quiet h.ev.dist h.ev.pool hok hstep hworker
      (fun _ _ => begins_allowed hallow) hinplace haccepted
    exact h.keep hev (hsame.waiting _) (hsame.frames 0) hsame.calls
  have hframes := taskDistributor_frames hstep
  generalize ev.frames = f at hframes
  cases hframes with
  | executed ha | returned ha => exact (hworker _ ha).elim
  | nothing | refused | inplace => exact hkeep (by simp)
  | accepted =>
    obtain rfl := pushBack_of_accepted hstep
    exact h.pushBack hrun

theorem Chained.leave {s : TickLoop size} (h : Chained s) (hallow : s.allows (.worker k) = true) :
    (s.leave k).chains ≤ 1 ∧ ∀ c, s.busy c = true → (s.leave k).busy c = true := by
  unfold TickLoop.leave
  split
  · rename_i htick
    simp only [TickLoop.allows, htick, Bool.not_true, Bool.false_or, Bool.and_eq_true_iff, beq_iff_eq] at hallow
    have hchains := h.chains
    refine ⟨?_, ?_⟩
    · unfold TickLoop.chains at hchains ⊢
      rwa [hallow.2] at hchains
    · intro c hbusy
      unfold TickLoop.busy at hbusy ⊢
      rw [hallow.2] at hbusy
      simpa using hbusy
  · exact ⟨h.chains, fun _ => id⟩

theorem inTick_eq {s : TickLoop size} (h : Chained s) (htick : s.inTick k = true) :
    k = 0 ∧ ∃ outer, s.ev.frames 0 = .tick :: outer := by
  unfold TickLoop.inTick at htick
  rw [beq_iff_eq, List.head?_eq_some_iff] at htick
  obtain ⟨outer, hframes⟩ := htick
  obtain rfl : k = 0 := h.oneTick.thread k (by simp [hframes])
  exact ⟨rfl, outer, hframes⟩

theorem Chained.leave_frames {s : TickLoop size} (h : Chained s) (k : Nat) :
    (Function.update s.ev.frames k (s.ev.frames k).tail 0).count .tick =
      if (s.leave k).tick = .idle then 0 else 1 := by
  rw [Function.update_apply]
  have hold := h.frames
  cases htick : s.inTick k with
  | true =>
    obtain ⟨rfl, outer, hframes⟩ := inTick_eq h htick
    rw [hframes, List.count_cons_self] at hold
    rw [TickLoop.leave, htick, if_pos rfl, if_pos rfl, hframes, List.tail_cons]
    split at hold <;> simp at hold ⊢
    exact hold
  | false =>
    rw [TickLoop.leave, htick, if_neg Bool.false_ne_true, ← hold]
    split
    · rename_i hk
      subst hk
      cases hframes : s.ev.frames 0 with
      | nil => rfl
      | cons t outer =>
        have ht : t ≠ .tick := by
          rintro rfl
          simp [TickLoop.inTick, hframes] at htick
        rw [List.tail_cons, List.count_cons_of_ne ht]
    · rfl

theorem Chained.took {s : TickLoop size} {ev : TaskDistributor size PollTask} (h : Chained s)
    (hidle : s.tick = .idle) (hev : Carries (· = .tick) (ioQueue size) ev)
    (hqueue : s.ev.waiting (ioQueue size) = .tick :: ev.waiting (ioQueue size))
    (hframes : (ev.frames 0).count .tick = 1)
    (hbusy : ∀ c i, ev.calls c = some (i, .tick) → s.busy c = true) :
    Chained { s with ev := ev, tick := .working } where
  ev := hev
  frames := hframes
  calls c i hcall := by
    have hbusy := hbusy c i hcall
    unfold TickLoop.busy at hbusy ⊢
    rw [hidle] at hbusy
    simpa using hbusy
  chains := by
    have hchains := h.chains
    unfold TickLoop.chains at hchains ⊢
    rw [hqueue, List.count_cons_self, hidle] at hchains
    simp only [PollPc.alive, Bool.toNat_false, Bool.toNat_true] at hchains ⊢
    omega

theorem Chained.worker {s : TickLoop size} (h : Chained s) (hallow : s.allows (.worker k) = true)
    (hs : (s.leave k).run (.worker k) = some (s', es)) : Chained s' := by
  have hleave := h.leave hallow
  have hsame : (s.leave k).ev = s.ev := by
    unfold TickLoop.leave
    split <;> rfl
  obtain ⟨ev, hstep, rfl⟩ := run_eq hs
  rw [hsame] at hstep
  have hok : StartOnce s.ev (.worker k) := trivial
  have hev := h.ev.step hok hstep nofun nofun
  have hwaiting := waiting_step h.ev.dist hok hstep
  have hbusy (c i) (hcall : ev.calls c = some (i, .tick)) : (s.leave k).busy c = true :=
    hleave.2 c (h.calls c i ((calls_step h.ev.dist h.ev.pool hstep hcall).resolve_right nofun))
  have hframes := taskDistributor_frames hstep
  generalize hf : ev.frames = f at hframes
  cases hframes with
  | @executed k' t ha hnil =>
    obtain rfl : k = k' := by cases ha; rfl
    have hnot : s.inTick k = false := by
      unfold TickLoop.inTick
      rw [hnil]
      rfl
    rw [TickLoop.leave, hnot, if_neg Bool.false_ne_true] at hbusy ⊢
    have hk : k < mSize size := by
      cases taskDistributor_shown h.ev.dist hstep with
      | executed hk => exact hk
    have hqueue : s.ev.waiting (ioQueue size) = (if k = 0 then [t] else []) ++ ev.waiting (ioQueue size) := by
      have heq := hwaiting (ioQueue size)
      simpa only [Network.accepted, executed, List.append_nil, ioQueue_val] using heq
    cases t with
    | other id =>
      refine ⟨hev, ?_, hbusy, ?_⟩
      · refine Eq.trans ?_ h.frames
        change (ev.frames 0).count .tick = _
        rw [hf, Function.update_apply]
        split
        · rename_i hzero
          rw [hzero, hnil]
          rfl
        · rfl
      · have hchains := h.chains
        unfold TickLoop.chains at hchains ⊢
        rw [hqueue, List.count_append] at hchains
        change (ev.waiting (ioQueue size)).count .tick + s.starts.length + s.tick.alive.toNat ≤ 1
        omega
    | tick =>
      obtain rfl : k = 0 := by
        have hio := h.ev.waiting ⟨k, hk⟩ _ (executed_waited h.ev.dist hok hstep hk) rfl
        exact (congrArg Fin.val hio).trans (ioQueue_val size)
      have hidle : s.tick = .idle := by
        have hzero := h.frames
        rw [hnil] at hzero
        by_contra hne
        simp [hne] at hzero
      refine h.took hidle hev hqueue ?_ hbusy
      rw [hf, Function.update_self]
      rfl
  | @returned k' ha =>
    obtain rfl : k = k' := by cases ha; rfl
    have hqueue : ev.waiting (ioQueue size) = s.ev.waiting (ioQueue size) := by
      simpa [Network.accepted, executed] using (hwaiting (ioQueue size)).symm
    refine ⟨hev, ?_, hbusy, ?_⟩
    · exact (congrArg (fun f => List.count .tick (f 0)) hf).trans (h.leave_frames k)
    · have hchains := hleave.1
      unfold TickLoop.chains at hchains ⊢
      rw [hsame] at hchains
      refine Nat.le_trans (Nat.le_of_eq ?_) hchains
      rw [← hqueue]
      rfl
  | inplace ha => cases ha
  | nothing ha => exact (ha k rfl).elim
  | refused c ha => exact (ha k rfl).elim
  | accepted ha => exact (ha k rfl).elim

theorem Chained.workNextTick {s : TickLoop size} (h : Chained s) (hbusy : s.busy c = true)
    (hs : s.run (.addTaskOf c (some .tick) .io 0) = some (s', es)) :
    Chained (if es.isEmpty then s' else s'.added c) := by
  obtain ⟨ev, hstep, rfl⟩ := run_eq hs
  have hok : StartOnce s.ev (.addTaskOf c (some .tick) .io 0) := trivial
  have hev : Carries (· = .tick) (ioQueue size) ev := by
    refine h.ev.step hok hstep ?_ nofun
    rintro _ _ _ hbegins -
    cases hbegins with
    | addTaskOf hi => exact hi
  obtain ⟨hcan, hstep⟩ := Option.ite_none_right_eq_some.mp hstep
  have hidle : s.ev.calls c = none := by
    unfold TaskDistributor.canCall at hcan
    exact Option.isNone_iff_eq_none.mp (Bool.and_eq_true_iff.mp hcan).1
  replace hstep := Option.some.inj hstep
  unfold TaskDistributor.addTask at hstep
  split at hstep
  · rename_i t _ heq
    cases heq
    cases hstep
    refine ⟨hev, h.frames, ?_, h.chains⟩
    intro c' i hcall
    change Function.update s.ev.calls c (some (ioQueue size, .tick)) c' = _ at hcall
    rw [Function.update_apply] at hcall
    split at hcall
    · rename_i hc
      exact hc ▸ hbusy
    · exact h.calls c' i hcall
  · cases hstep
    refine h.added hbusy hev (Nat.le_succ _) rfl ?_
    intro c' i hcall
    refine ⟨?_, hcall⟩
    rintro rfl
    rw [hidle] at hcall
    cases hcall

theorem Chained.turn {s : TickLoop size} (h : Chained s) (hidle : s.tick ≠ .idle) (hnext : s.tick ≠ .next)
    (hpc : pc ≠ .idle) (halive : s.tick.alive = true) (m_shutdown : Bool) :
    Chained { s with m_shutdown := m_shutdown, tick := pc } where
  ev := h.ev
  frames := by
    refine h.frames.trans ?_
    simp only [hidle, hpc]
  calls c i hcall := by
    have hbusy := h.calls c i hcall
    unfold TickLoop.busy at hbusy ⊢
    rw [beq_eq_false_iff_ne.mpr hnext, Bool.and_false, Bool.or_false] at hbusy
    rw [hbusy, Bool.true_or]
  chains := by
    refine Nat.le_trans (Nat.add_le_add_left ?_ _) h.chains
    rw [halive]
    exact Bool.toNat_le _

theorem Chained.step {s : TickLoop size} (h : Chained s) (hok : StartsEnded s a)
    (hs : (tickLoop size).step s a = some (s', es)) : Chained s' := by
  cases a with
  | start c =>
    obtain ⟨-, hs⟩ := Option.ite_none_right_eq_some.mp hs
    cases hs
    refine ⟨h.ev, h.frames, ?_, ?_⟩
    · intro c' i hcall
      have hbusy := h.calls c' i hcall
      unfold TickLoop.busy at hbusy ⊢
      rw [Bool.or_eq_true_iff] at hbusy ⊢
      refine hbusy.imp_left fun hmem => ?_
      rw [List.contains_iff_mem] at hmem ⊢
      exact .tail _ hmem
    · have hchains : s.chains = 0 := hok
      unfold TickLoop.chains at hchains ⊢
      dsimp only
      rw [List.length_cons]
      omega
  | workNextTick c =>
    obtain ⟨hbusy, hs⟩ := Option.ite_none_right_eq_some.mp hs
    simp only [Option.bind_eq_bind, Option.bind_eq_some_iff] at hs
    obtain ⟨⟨s₁, es₁⟩, hrun, hs⟩ := hs
    cases hs
    exact h.workNextTick hbusy hrun
  | stop =>
    cases hs
    exact ⟨h.ev, h.frames, h.calls, h.chains⟩
  | work failed =>
    obtain ⟨hguard, hs⟩ := Option.ite_none_right_eq_some.mp hs
    cases hs
    simp only [Bool.and_eq_true_iff, beq_iff_eq] at hguard
    obtain ⟨⟨⟨-, hpc⟩, -⟩, -⟩ := hguard
    refine h.turn (by simp [hpc]) (by simp [hpc]) ?_ (by simp [hpc, PollPc.alive]) _
    intro hidle
    cases hidle
  | test =>
    obtain ⟨hguard, hs⟩ := Option.ite_none_right_eq_some.mp hs
    cases hs
    simp only [Bool.and_eq_true_iff, beq_iff_eq] at hguard
    obtain ⟨-, hpc⟩ := hguard
    refine h.turn (by simp [hpc]) (by simp [hpc]) ?_ (by simp [hpc, PollPc.alive]) _
    split <;> intro hidle <;> cases hidle
  | exec a =>
    obtain ⟨hallow, hs⟩ := Option.ite_none_right_eq_some.mp hs
    cases a with
    | worker k => exact h.worker hallow hs
    | _ => exact h.exec hallow (by rintro k ⟨⟩) hs

theorem chained_init : Chained (tickLoop size).init where
  ev := carries_new _ _
  frames := rfl
  calls := nofun
  chains := Nat.zero_le 1

theorem chained_run (h : (tickLoop size).RunIf StartsEnded tr s) : Chained s :=
  h.state_invariant chained_init fun _ _ _ _ hi hok hs => hi.step hok hs

end

/-- In a run in which `start` is only called when no tick has work to do or to
queue, one tick at most is queued or at work. -/
theorem rePoller_keeps_one_tick (size : Nat) (tr : List (DistEv size PollTask)) (s : TickLoop size)
    (h : (tickLoop size).RunIf StartsEnded tr s) : OneTick s := (chained_run h).oneTick

theorem rePoller_keeps_one_tick_run : ∃ tr s, (tickLoop 1).RunIf StartsEnded tr s ∧
    tr = [.accepted (.external 0) (ioQueue 1) .tick, .executed 0 .tick, .accepted (.worker 0) (ioQueue 1) .tick,
      .executed 0 .tick, .accepted (.external 0) (ioQueue 1) .tick] ∧ OneTick s := by
  have hr : (((tickLoop 1).only StartsEnded).replay ⟨.new 1 PollTask, false, .idle, []⟩
      [.exec .start, .exec .control, .exec .control,
        .start (.external 0), .workNextTick (.external 0), .exec (.pushBack (.external 0)),
        .exec (.worker 0), .exec (.worker 0), .exec (.worker 0), .exec (.worker 0), .exec (.worker 0),
        .exec (.worker 0), .work false, .test, .stop, .workNextTick (.worker 0), .exec (.pushBack (.worker 0)),
        .exec (.worker 0), .exec (.worker 0), .exec (.worker 0), .exec (.worker 0), .exec (.worker 0),
        .exec (.worker 0), .exec (.worker 0), .exec (.worker 0), .work false, .test,
        .start (.external 0), .workNextTick (.external 0), .exec (.pushBack (.external 0))]).isSome := rfl
  have hrun := Machine.steps_of_replay_only (Option.some_get hr).symm
  exact ⟨_, _, hrun, rfl, rePoller_keeps_one_tick 1 _ _ hrun⟩

/-- A poller that is stopped and started again before its tick runs. -/
theorem rePoller_restart_queues_two : ∃ tr s, (tickLoop 1).Run tr s ∧
    tr = [.accepted (.external 0) (ioQueue 1) .tick, .accepted (.external 0) (ioQueue 1) .tick] ∧ ¬OneTick s := by
  have hr : ((tickLoop 1).replay ⟨.new 1 PollTask, false, .idle, []⟩
      [.exec .start, .exec .control, .exec .control,
        .start (.external 0), .workNextTick (.external 0), .exec (.pushBack (.external 0)), .stop,
        .start (.external 0), .workNextTick (.external 0), .exec (.pushBack (.external 0))]).isSome := rfl
  refine ⟨_, _, Machine.steps_of_replay (Option.some_get hr).symm, rfl, ?_⟩
  intro h
  exact absurd h.single (by decide)

end Andren.Network
