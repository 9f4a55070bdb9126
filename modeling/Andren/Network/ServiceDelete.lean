import Andren.Network.EventLoop

/-!
# Deleting a service

The closure of `delService` runs later than the call, and it uses the iterator
that `find` gives it without a test, which `findService` makes. For a key that
all four calls send to one thread, the closure is safe just when an add or a
modify was the last to change the key's entry (`delService_safe_iff`); the
second of two deletes is not.
-/

namespace Andren.Network

open Machines Base

variable {n : BitVec 32}

/-- The action begins the closure of a call, from the thread's batch or in place. -/
inductive Dispatches (s : EventLoop n) (c : Caller) (op : ServiceOp) : LoopAct → Prop
  | queued {k i rest} (hcall : s.m_exec.calls (.worker k) = none)
      (hw : s.m_exec.threads[k]? = some ⟨i, .batch (some (.config c op) :: rest)⟩) :
      Dispatches s c op (.worker k)
  | inplace {k i task outer rest r tpool} (hc : c = .worker k) (hready : s.constructed = true ∧ s.valid = true)
      (hcall : s.m_exec.calls (.worker k) = none) (hindex : op.index n = some r)
      (htpool : s.m_exec.m_tpool = some tpool) (hk : tpool (queueIndex n.toNat r.toNat) = some k)
      (hw : s.m_exec.threads[k]? = some ⟨i, .running task outer rest⟩) :
      Dispatches s c op (.call c (some op))

/-- The step is defined, it leaves the registries alone where the key is
absent, and the callback is given what is registered, if anything. -/
def DeletesSafely (key : BitVec 64) (s : EventLoop n) (a : LoopAct) : Prop :=
  ∃ s' es, (eventLoop n).step s a = some (s', es) ∧
    ((∀ i, (s.m_pdata i)[key.toInt]? = none) → s'.m_pdata = s.m_pdata) ∧
    ∀ i c before service, .begun i c (.delService key before) (some service) ∈ es →
      (s.m_pdata i)[key.toInt]? = some service

theorem exec_executed {s : EventLoop n} {d' : TaskDistributor n.toNat LoopTask}
    (hs : (taskDistributor n.toNat LoopTask).step s.m_exec d = some (d', [.executed k (.config c op)])) :
    s.exec d = EventLoop.beginOp { s with m_exec := d' } c op := by
  simp only [EventLoop.exec, hs, Option.bind_eq_bind, Option.bind_some, EventLoop.noteAll, EventLoop.note,
    EventLoop.beginTask, List.append_nil]
  exact Option.bind_fun_some _

theorem exec_inplace {s : EventLoop n} {d' : TaskDistributor n.toNat LoopTask}
    (hs : (taskDistributor n.toNat LoopTask).step s.m_exec d = some (d', [.inplace k (.config c op)])) :
    s.exec d = (EventLoop.beginOp { s with m_exec := d' } c op).map fun r => (r.1, .called c op :: r.2) := by
  simp only [EventLoop.exec, hs, Option.bind_eq_bind, Option.bind_some, EventLoop.noteAll, EventLoop.note,
    EventLoop.beginTask]
  cases EventLoop.beginOp { s with m_exec := d' } c op with
  | none => rfl
  | some r => simp [EventLoop.called]

theorem Dispatches.step_eq {s : EventLoop n} (h : Dispatches s c op a) : ∃ d pre,
    (eventLoop n).step s a = (EventLoop.beginOp { s with m_exec := d } c op).map (fun r => (r.1, pre ++ r.2)) ∧
      (pre = [] ∨ pre = [.called c op]) := by
  cases h with
  | @queued k i rest hcall hw =>
    obtain ⟨d, hs⟩ : ∃ d, (taskDistributor n.toNat LoopTask).step s.m_exec (.worker k) =
        some (d, [.executed k (.config c op)]) := by
      simp [taskDistributor, hw, hcall, workerStep]
    refine ⟨d, [], ?_, .inl rfl⟩
    simp only [eventLoop, EventLoop.work, EventLoop.leave, hw, Option.bind_eq_bind, Option.bind_some,
      exec_executed hs, List.nil_append]
    cases EventLoop.beginOp _ c op <;> rfl
  | @inplace k i task outer rest r tpool hc hready hcall hindex htpool hk hw =>
    subst hc
    have hcan : s.m_exec.canCall (.worker k) = true := by simp [TaskDistributor.canCall, hcall, hw]
    obtain ⟨d, hs⟩ : ∃ d, (taskDistributor n.toNat LoopTask).step s.m_exec
        (.addTaskASAP (.worker k) (some (.config (.worker k) op)) r.toNat) =
          some (d, [.inplace k (.config (.worker k) op)]) := by
      simp [taskDistributor, hcan, TaskDistributor.addTaskASAP, htpool, hk, hw]
    refine ⟨d, [.called (.worker k) op], ?_, .inr rfl⟩
    simp only [eventLoop, hready, hcan, Bool.and_self, if_true, hindex, Option.bind_eq_bind, Option.bind_some,
      exec_inplace hs]
    rfl

-- ---------------------------------------------------------------------------
-- Keys without a thread
-- ---------------------------------------------------------------------------

def HasThread (n : BitVec 32) (key : BitVec 64) : Prop :=
  ∃ (op : ServiceOp) (i : Fin n.toNat), op.key = key ∧ EventLoop.slot n op = some i

def OnThreads (es : List (LoopEv n)) : Prop := ∀ e ∈ es, ∀ key, LoopEv.effect key e ≠ none → HasThread n key

theorem onThreads_append {es es' : List (LoopEv n)} (h : OnThreads es) (h' : OnThreads es') : OnThreads (es ++ es') := by
  intro e he
  rcases List.mem_append.mp he with he | he
  · exact h e he
  · exact h' e he

theorem onThreads_quiet {es : List (LoopEv n)} (h : ∀ e ∈ es, ∀ key, LoopEv.effect key e = none) : OnThreads es :=
  fun e he key hne => absurd (h e he key) hne

theorem onThreads_op {op : ServiceOp} {i : Fin n.toNat} {es : List (LoopEv n)} (hi : EventLoop.slot n op = some i)
    (h : ∀ e ∈ es, ∀ key, LoopEv.effect key e ≠ none → op.key = key) : OnThreads es :=
  fun e he key hne => ⟨op, i, h e he key hne, hi⟩

theorem begun_effect {i : Fin n.toNat} {c : Caller} {op : ServiceOp} {res : Option EventsService}
    (h : LoopEv.effect key (.begun i c op res) ≠ none) : op.key = key := by
  by_contra hne
  exact h (if_neg hne)

theorem erased_effect {i : Fin n.toNat} (h : LoopEv.effect key (.erased i service_key) ≠ none) : service_key = key := by
  by_contra hne
  exact h (if_neg hne)

theorem onThreads_begin {s s' : EventLoop n} (hs : s.beginTask t = some (s', es)) : OnThreads es := by
  cases t with
  | processEvents =>
    cases hs
    nofun
  | config c op =>
    obtain ⟨i, hi, hruns⟩ := beginOp_runs hs
    have hone : ∀ res, OnThreads [.begun i c op res] := by
      intro res
      refine onThreads_op hi fun e he key hne => ?_
      cases List.mem_singleton.mp he
      exact begun_effect hne
    cases hruns with
    | adds | mods | finds | calls => exact hone _
    | deletes =>
      refine onThreads_append (hone none) (onThreads_op hi fun e he key hne => ?_)
      cases List.mem_singleton.mp he
      exact erased_effect hne

theorem onThreads_end {s s' : EventLoop n} (hs : s.endTask t = some (s', es)) : OnThreads es := by
  obtain ⟨_, _, i, _, -, hi, -, rfl⟩ | ⟨-, -, rfl⟩ := endTask_cases hs
  · refine onThreads_op hi fun e he key hne => ?_
    cases List.mem_singleton.mp he
    exact erased_effect hne
  · intro e he
    cases he

theorem onThreads_called (t : LoopTask) : OnThreads (EventLoop.called t : List (LoopEv n)) := by
  cases t <;> exact onThreads_quiet (by simp [EventLoop.called, LoopEv.effect])

theorem onThreads_note {s s' : EventLoop n} (hs : s.note e = some (s', es)) : OnThreads es := by
  cases e with
  | refused c =>
    cases hs
    exact onThreads_quiet (by simp [LoopEv.effect])
  | accepted c i t =>
    cases hs
    exact onThreads_called t
  | executed k t => exact onThreads_begin hs
  | inplace k t =>
    simp only [EventLoop.note, Option.bind_eq_bind, Option.bind_eq_some_iff] at hs
    obtain ⟨⟨s₁, es₁⟩, hbegin, hs⟩ := hs
    cases hs
    exact onThreads_append (onThreads_called t) (onThreads_begin hbegin)

theorem onThreads_noteAll {s s' : EventLoop n} (hs : s.noteAll des = some (s', es)) : OnThreads es := by
  induction des generalizing s es with
  | nil =>
    cases hs
    nofun
  | cons e des ih =>
    simp only [EventLoop.noteAll, Option.bind_eq_bind, Option.bind_eq_some_iff] at hs
    obtain ⟨⟨s₁, es₁⟩, hnote, ⟨s₂, es₂⟩, hrest, hs⟩ := hs
    cases hs
    exact onThreads_append (onThreads_note hnote) (ih hrest)

theorem onThreads_exec {s s' : EventLoop n} (hs : s.exec d = some (s', es)) : OnThreads es := by
  simp only [EventLoop.exec, Option.bind_eq_bind, Option.bind_eq_some_iff] at hs
  obtain ⟨_, -, hs⟩ := hs
  exact onThreads_noteAll hs

theorem onThreads_run {s : EventLoop n} (h : (eventLoop n).Run tr s) : OnThreads tr := by
  refine h.invariant (I := fun tr _ => OnThreads tr) nofun ?_
  intro tr s a s' es _ ih _ hs
  refine onThreads_append ih ?_
  rcases eventLoop_cases hs with ⟨d, -, hexec⟩ | ⟨k, hwork⟩ | ⟨c, rfl, rfl⟩
  · exact onThreads_exec hexec
  · simp only [EventLoop.work, Option.bind_eq_bind, Option.bind_eq_some_iff] at hwork
    obtain ⟨⟨s₁, es₁⟩, hleave, ⟨s₂, es₂⟩, hexec, hwork⟩ := hwork
    cases hwork
    refine onThreads_append ?_ (onThreads_exec hexec)
    unfold EventLoop.leave at hleave
    split at hleave
    · exact onThreads_end hleave
    · cases hleave
      nofun
  · exact onThreads_quiet (by simp [LoopEv.effect])

theorem hasThread_of_lastEffect {s : EventLoop n} (h : (eventLoop n).Run tr s) (hlast : lastEffect key tr ≠ none) :
    HasThread n key := by
  obtain ⟨service, hservice⟩ := Option.ne_none_iff_exists'.mp hlast
  have hmem := List.mem_of_getLast? (Option.join_eq_some_iff.mp hservice)
  obtain ⟨e, he, heffect⟩ := List.mem_filterMap.mp hmem
  exact onThreads_run h e he key (heffect ▸ nofun)

-- ---------------------------------------------------------------------------
-- A delete whose turn comes
-- ---------------------------------------------------------------------------

theorem slot_of_nonneg (hkey : 0 ≤ key.toInt) {op op' : ServiceOp} (hop : op.key = key) (hop' : op'.key = key) :
    EventLoop.slot n op = EventLoop.slot n op' := by
  have habs : key.abs = key := by
    rw [BitVec.abs, BitVec.msb_eq_toInt, decide_eq_false (Int.not_lt.mpr hkey)]
    rfl
  have hindex : ∀ op : ServiceOp, op.key = key → op.index n = (Schedule.mk n).modThreads key := by
    rintro (service | service_key | service | service_key) rfl
    · rfl
    all_goals exact congrArg (Schedule.mk n).modThreads habs
  rw [EventLoop.slot, EventLoop.slot, hindex op hop, hindex op' hop']

theorem beginOp_del {s : EventLoop n} {i : Fin n.toNat} (hi : EventLoop.slot n (.delService key before) = some i)
    (hservice : (s.m_pdata i)[key.toInt]? = some service) :
    ∃ s' es, s.beginOp c (.delService key before) = some (s', es) ∧
      ∀ j c' before' service', .begun j c' (.delService key before') (some service') ∈ es →
        j = i ∧ service' = service := by
  cases before with
  | false =>
    refine ⟨s.erase i key, [.begun i c (.delService key false) none, .erased i key], ?_, by simp⟩
    simp [EventLoop.beginOp, hi, hservice]
  | true =>
    refine ⟨{ s with iters := Function.update s.iters i (some key.toInt :: s.iters i) },
      [.begun i c (.delService key true) (some service)], by simp [EventLoop.beginOp, hi, hservice], ?_⟩
    intro j c' before' service' he
    cases List.mem_singleton.mp he
    exact ⟨rfl, rfl⟩

/-- The closure of a `delService` that is about to run is safe just when the
last closure that changed the entry of its key was not a delete. -/
theorem delService_safe_iff (n : BitVec 32) (key : BitVec 64) (hkey : 0 ≤ key.toInt) (tr : List (LoopEv n))
    (s : EventLoop n) (h : (eventLoop n).Run tr s) (c : Caller) (before : Bool) (a : LoopAct)
    (ha : Dispatches s c (.delService key before) a) : DeletesSafely key s a ↔ lastEffect key tr ≠ none := by
  obtain ⟨d, pre, hstep, hpre⟩ := ha.step_eq
  have hregistry : ∀ i, EventLoop.slot n (.delService key before) = some i →
      (s.m_pdata i)[key.toInt]? = lastEffect key tr := by
    intro i hi
    have hhome : ∀ op : ServiceOp, op.key = key → EventLoop.slot n op = some i :=
      fun op hop => (slot_of_nonneg hkey hop rfl).trans hi
    rw [(registry_run hhome h).content i, if_pos rfl]
  constructor
  · rintro ⟨s', es, hs, -⟩ hnone
    obtain ⟨⟨s₁, es₁⟩, hbegin, -⟩ := Option.map_eq_some_iff.mp (hstep.symm.trans hs)
    obtain ⟨i, hi, hruns⟩ := beginOp_runs hbegin
    cases hruns with
    | calls hservice | deletes hservice =>
      rw [show (s.m_pdata i)[key.toInt]? = none from (hregistry i hi).trans hnone] at hservice
      cases hservice
  · intro hlast
    obtain ⟨op, i, hop, hi⟩ := hasThread_of_lastEffect h hlast
    replace hi : EventLoop.slot n (.delService key before) = some i := (slot_of_nonneg hkey rfl hop).trans hi
    obtain ⟨service, hservice⟩ := Option.ne_none_iff_exists'.mp (hregistry i hi ▸ hlast)
    obtain ⟨s', es, hbegin, hbegun⟩ := beginOp_del (s := { s with m_exec := d }) (c := c) hi hservice
    refine ⟨s', pre ++ es, by rw [hstep, hbegin]; rfl, ?_, ?_⟩
    · intro habsent
      rw [habsent i] at hservice
      cases hservice
    · intro j c' before' service' he
      have he' : .begun j c' (.delService key before') (some service') ∈ es := by
        rcases hpre with rfl | rfl
        · exact he
        · simpa using he
      obtain ⟨rfl, rfl⟩ := hbegun j c' before' service' he'
      exact hservice

theorem delService_safe_iff_added : ∃ tr s, (eventLoop 1).Run tr s ∧
    lastEffect 5 tr = some ⟨1, 5⟩ ∧ DeletesSafely 5 s (.worker 0) := by
  have hr : ((eventLoop 1).replay (EventLoop.new 1)
      [.construct, .control, .control, .call (.external 0) (some (.addService ⟨1, 5⟩)), .pushBack (.external 0),
        .call (.external 1) (some (.delService 5 true)), .pushBack (.external 1),
        .worker 0, .worker 0, .worker 0, .worker 0, .worker 0, .worker 0, .worker 0]).isSome := rfl
  have hrun := Machine.steps_of_replay (Option.some_get hr).symm
  refine ⟨_, _, hrun, by decide, ?_⟩
  exact (delService_safe_iff 1 5 (by decide) _ _ hrun (.external 1) true (.worker 0) (.queued rfl rfl)).mpr (by decide)

/-- Two clients delete one key. The second closure finds nothing. -/
theorem delService_unsafe : ¬∀ (n : BitVec 32) (key : BitVec 64), 0 ≤ key.toInt → ∀ tr s, (eventLoop n).Run tr s →
    ∀ c before a, Dispatches s c (.delService key before) a → DeletesSafely key s a := by
  intro h
  have hr : ((eventLoop 1).replay (EventLoop.new 1)
      [.construct, .control, .control, .call (.external 0) (some (.addService ⟨1, 5⟩)), .pushBack (.external 0),
        .call (.external 1) (some (.delService 5 false)), .pushBack (.external 1),
        .call (.external 2) (some (.delService 5 false)), .pushBack (.external 2),
        .worker 0, .worker 0, .worker 0, .worker 0, .worker 0, .worker 0, .worker 0, .worker 0, .worker 0]).isSome := rfl
  have hrun := Machine.steps_of_replay (Option.some_get hr).symm
  obtain ⟨s', es, hs, -⟩ := h 1 5 (by decide) _ _ hrun (.external 2) false (.worker 0) (.queued rfl rfl)
  cases hs

end Andren.Network
