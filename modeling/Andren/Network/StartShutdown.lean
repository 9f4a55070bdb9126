import Andren.Network.TaskDistributor

/-!
# Starting and shutting down a distributor

`start` makes new threads and `shutdown` joins those it can still see. A second
`start` before that leaves the first threads in their loops, so that one queue
has two consumers (`taskDistributor_oneConsumer`). `shutdown` keeps `m_tpool`,
the only thing that `addTask` tests, so a distributor refuses work until its
first `start` and never again (`taskDistributor_refuses`).
-/

namespace Andren.Network

open Machines Base

variable {Task : Type}

def WorkerPc.live : WorkerPc Task → Bool
  | .returned => false
  | _ => true

section

variable {size : Nat}

/-- At most one thread is inside `startNextLoop(i)` for each `i`. -/
def OneConsumer (s : TaskDistributor size Task) : Prop :=
  ∀ (k k' : Nat) (w w' : Worker size Task), s.threads[k]? = some w → s.threads[k']? = some w' →
    w.pc.live = true → w'.pc.live = true → w.index = w'.index → k = k'

/-- `start` is called when no thread is left in its loop. -/
def StartsAtRest (s : TaskDistributor size Task) : DistAct Task → Prop
  | .start => ∀ w ∈ s.threads, w.pc.live = false
  | _ => True

-- ---------------------------------------------------------------------------
-- One consumer for each queue
-- ---------------------------------------------------------------------------

structure ConsumersOk (s : TaskDistributor size Task) : Prop where
  one : OneConsumer s
  starting : ∀ i, s.control = .starting i → ∀ w ∈ s.threads, w.pc.live = true → w.index.val < i

theorem ConsumersOk.keep {s s' : TaskDistributor size Task} (h : ConsumersOk s)
    (hthreads : ∀ (k : Nat) (w' : Worker size Task), s'.threads[k]? = some w' → w'.pc.live = true →
      ∃ w, s.threads[k]? = some w ∧ w.pc.live = true ∧ w.index = w'.index)
    (hctl : ∀ i, s'.control = .starting i → s.control = .starting i) : ConsumersOk s' where
  one k₁ k₂ w₁ w₂ hw₁ hw₂ hlive₁ hlive₂ hindex := by
    obtain ⟨v₁, hv₁, hl₁, hi₁⟩ := hthreads k₁ w₁ hw₁ hlive₁
    obtain ⟨v₂, hv₂, hl₂, hi₂⟩ := hthreads k₂ w₂ hw₂ hlive₂
    exact h.one k₁ k₂ v₁ v₂ hv₁ hv₂ hl₁ hl₂ (hi₁.trans (hindex.trans hi₂.symm))
  starting i hi w hw hlive := by
    obtain ⟨k, hk⟩ := List.mem_iff_getElem?.mp hw
    obtain ⟨v, hv, hl, hindex⟩ := hthreads k w hk hlive
    exact hindex ▸ h.starting i (hctl i hi) v (List.mem_of_getElem? hv) hl

theorem live_of_set {threads : List (Worker size Task)} (hw : threads[k]? = some w) (hpc : w.pc.live = true)
    (j : Nat) (w' : Worker size Task) (hj : (threads.set k ⟨w.index, pc⟩)[j]? = some w') (hlive : w'.pc.live = true) :
    ∃ v : Worker size Task, threads[j]? = some v ∧ v.pc.live = true ∧ v.index = w'.index := by
  rcases eq_or_ne k j with rfl | hne
  · rw [List.getElem?_set_self (List.getElem?_eq_some_iff.mp hw).1] at hj
    cases hj
    exact ⟨w, hw, hpc, rfl⟩
  · rw [List.getElem?_set_ne hne] at hj
    exact ⟨w', hj, hlive, rfl⟩

theorem live_of_workerStep (h : workerStep exit q pc = some r) : pc.live = true := by
  cases pc with
  | returned => cases h
  | _ => rfl

theorem ConsumersOk.spawn {s : TaskDistributor size Task} (h : ConsumersOk s) (hctl : s.control = .starting i)
    (hi : i < mSize size) (tpool : Option (Fin (mSize size) → Option Nat)) : ConsumersOk { s with
      threads := s.threads ++ [⟨⟨i, hi⟩, .top⟩]
      m_tpool := tpool
      control := .starting (i + 1) } where
  one k₁ k₂ w₁ w₂ hw₁ hw₂ hlive₁ hlive₂ hindex := by
    have hcase : ∀ (k : Nat) (w : Worker size Task), (s.threads ++ [⟨⟨i, hi⟩, .top⟩])[k]? = some w →
        w.pc.live = true → s.threads[k]? = some w ∧ w.index.val < i ∨ k = s.threads.length ∧ w.index.val = i := by
      intro k w hk hlive
      rcases Nat.lt_trichotomy k s.threads.length with hlt | rfl | hgt
      · rw [List.getElem?_append_left hlt] at hk
        exact .inl ⟨hk, h.starting i hctl w (List.mem_of_getElem? hk) hlive⟩
      · rw [List.getElem?_concat_length] at hk
        cases hk
        exact .inr ⟨rfl, rfl⟩
      · rw [List.getElem?_append_right (Nat.le_of_lt hgt), List.getElem?_eq_none (by simp; omega)] at hk
        cases hk
    have hval := congrArg Fin.val hindex
    rcases hcase k₁ w₁ hw₁ hlive₁ with ⟨hw₁, hlt₁⟩ | ⟨hk₁, heq₁⟩ <;>
      rcases hcase k₂ w₂ hw₂ hlive₂ with ⟨hw₂, hlt₂⟩ | ⟨hk₂, heq₂⟩
    · exact h.one k₁ k₂ w₁ w₂ hw₁ hw₂ hlive₁ hlive₂ hindex
    · omega
    · omega
    · exact hk₁.trans hk₂.symm
  starting j hj w hw hlive := by
    cases hj
    rcases List.mem_append.mp hw with hw | hw
    · exact Nat.lt_succ_of_lt (h.starting i hctl w hw hlive)
    · cases List.mem_singleton.mp hw
      exact Nat.lt_succ_self i

theorem ConsumersOk.control {s s' : TaskDistributor size Task} (h : ConsumersOk s) (hs : ControlMoves s s') :
    ConsumersOk s' := by
  cases hs with
  | spawns hctl _ hi => exact h.spawn hctl hi _
  | skips | joins | ends => exact h.keep (fun k w hw hlive => ⟨w, hw, hlive, rfl⟩) nofun

theorem consumersOk_step {s s' : TaskDistributor size Task} (h : ConsumersOk s) (hok : StartsAtRest s a)
    (hs : (taskDistributor size Task).step s a = some (s', es)) : ConsumersOk s' := by
  cases taskDistributor_moves hs with
  | refuses => exact h
  | begins | pushBack => exact h.keep (fun k w hw hlive => ⟨w, hw, hlive, rfl⟩) fun _ hi => hi
  | nests t index htpool hk hw => exact h.keep (live_of_set hw rfl) fun _ hi => hi
  | worker hw hstep => exact h.keep (live_of_set hw (live_of_workerStep hstep)) fun _ hi => hi
  | start =>
    have hrest : ∀ w ∈ s.threads, ¬w.pc.live = true := fun w hw => by simp [hok w hw]
    refine ⟨fun k _ w _ hw _ hlive => absurd hlive (hrest w (List.mem_of_getElem? hw)), ?_⟩
    exact fun _ _ w hw hlive => absurd hlive (hrest w hw)
  | shutdown => exact h.keep (fun k w hw hlive => ⟨w, hw, hlive, rfl⟩) nofun
  | control hctl => exact h.control hctl

/-- The loop of `start` up to thread `j`, with nobody else taking a step. -/
theorem start_spawns {s : TaskDistributor size Task} (hidle : s.control = .idle) (hj : j ≤ mSize size) :
    ∃ s' tpool, (taskDistributor size Task).Steps Machine.anyStep s [] s' ∧ s'.control = .starting j ∧
      s'.m_tpool = some tpool ∧ s.threads <+: s'.threads := by
  induction j with
  | zero =>
    have hs : (taskDistributor size Task).step s .start = some ({ s with
        m_exit := false
        m_tpool := some fun _ => none
        control := .starting 0 }, []) := by
      simp only [taskDistributor, hidle]
    exact ⟨_, _, .one trivial hs, rfl, rfl, List.prefix_rfl⟩
  | succ j ih =>
    obtain ⟨s', tpool, hrun, hctl, htpool, hold⟩ := ih (Nat.le_of_lt hj)
    have hs : (taskDistributor size Task).step s' .control = some ({ s' with
        threads := s'.threads ++ [⟨⟨j, hj⟩, .top⟩]
        m_tpool := some (Function.update tpool ⟨j, hj⟩ (some s'.threads.length))
        control := .starting (j + 1) }, []) := by
      simp only [taskDistributor, TaskDistributor.controlStep, hctl, htpool, dif_pos (Nat.lt_of_succ_le hj),
        Option.map_some]
    exact ⟨_, _, .step hrun trivial hs, rfl, rfl, hold.trans (List.prefix_append ..)⟩

/-- A `start` that finds a thread in its loop can give its queue a second consumer. -/
theorem start_twice {s : TaskDistributor size Task} (hidle : s.control = .idle) (hw : w ∈ s.threads)
    (hlive : w.pc.live = true) :
    ∃ s', (taskDistributor size Task).Steps Machine.anyStep s [] s' ∧ ¬OneConsumer s' := by
  obtain ⟨k, hk⟩ := List.mem_iff_getElem?.mp hw
  obtain ⟨s', tpool, hrun, hctl, htpool, hold⟩ := start_spawns hidle (Nat.le_of_lt w.index.isLt)
  have hs : (taskDistributor size Task).step s' .control = some ({ s' with
      threads := s'.threads ++ [⟨w.index, .top⟩]
      m_tpool := some (Function.update tpool w.index (some s'.threads.length))
      control := .starting (w.index + 1) }, []) := by
    simp only [taskDistributor, TaskDistributor.controlStep, hctl, htpool, dif_pos w.index.isLt, Option.map_some]
  refine ⟨_, .step hrun trivial hs, fun hone => ?_⟩
  obtain ⟨rest, hold⟩ := hold
  have hlt := (List.getElem?_eq_some_iff.mp hk).1
  have hk' : s'.threads[k]? = some w := by rw [← hold, List.getElem?_append_left hlt, hk]
  replace hlt := (List.getElem?_eq_some_iff.mp hk').1
  replace hk' : (s'.threads ++ [⟨w.index, .top⟩])[k]? = some w := by rw [List.getElem?_append_left hlt, hk']
  have hsame := hone k s'.threads.length w ⟨w.index, .top⟩ hk' List.getElem?_concat_length hlive rfl rfl
  exact Nat.ne_of_lt hlt hsame

/-- When `start` is only called at rest, no queue ever has two consumers; when
it is not, a queue can have two. -/
theorem taskDistributor_oneConsumer (size : Nat) (Task : Type) :
    (∀ tr s, (taskDistributor size Task).RunIf StartsAtRest tr s → OneConsumer s) ∧
      ∀ s : TaskDistributor size Task, s.control = .idle → ¬StartsAtRest s .start →
        ∃ s', (taskDistributor size Task).Steps Machine.anyStep s [] s' ∧ ¬OneConsumer s' := by
  constructor
  · intro tr s hrun
    have hnew : ConsumersOk (TaskDistributor.new size Task) := ⟨nofun, nofun⟩
    exact (hrun.state_invariant hnew fun _ _ _ _ h hok hs => consumersOk_step h hok hs).one
  · intro s hidle hlive
    simp only [StartsAtRest, not_forall, Bool.not_eq_false] at hlive
    obtain ⟨w, hw, hlive⟩ := hlive
    exact start_twice hidle hw hlive

end

instance {size : Nat} : (s : TaskDistributor size Task) → (a : DistAct Task) → Decidable (StartsAtRest s a)
  | s, .start => inferInstanceAs (Decidable (∀ w ∈ s.threads, w.pc.live = false))
  | _, .addTask .. | _, .addTaskOf .. | _, .addTaskASAP .. | _, .pushBack _ | _, .worker _
  | _, .shutdown | _, .control => .isTrue trivial

theorem taskDistributor_oneConsumer_again : ∃ tr s, (taskDistributor 1 Nat).RunIf StartsAtRest tr s ∧
    s.threads.length = 2 ∧ OneConsumer s := by
  have hr : (((taskDistributor 1 Nat).only StartsAtRest).replay (TaskDistributor.new 1 Nat)
      [.start, .control, .control, .shutdown, .worker 0, .control, .control, .start, .control]).isSome := rfl
  have hrun := Machine.steps_of_replay_only (Option.some_get hr).symm
  exact ⟨_, _, hrun, rfl, (taskDistributor_oneConsumer 1 Nat).1 _ _ hrun⟩

theorem taskDistributor_twoConsumers : ¬∀ as s tr,
    (taskDistributor 1 Nat).replay (TaskDistributor.new 1 Nat) as = some (s, tr) → OneConsumer s := by
  intro h
  have hone := h [.start, .control, .control, .start, .control] _ _ rfl
  exact absurd (hone 0 1 _ _ rfl rfl rfl rfl rfl) nofun

-- ---------------------------------------------------------------------------
-- Work that is refused
-- ---------------------------------------------------------------------------

section

variable {size : Nat}

/-- Neither `start` nor `shutdown` is under way, and no thread is in its loop. -/
def AtRest (s : TaskDistributor size Task) : Prop := s.control = .idle ∧ ∀ w ∈ s.threads, w.pc.live = false

/-- Every call that adds a task returns false, and none is about to queue one. -/
def RefusesWork (s : TaskDistributor size Task) : Prop :=
  (∀ c task index a, Asks size c task index a → s.canCall c = true →
    (taskDistributor size Task).step s a = some (s, [.refused c])) ∧ ∀ c, s.calls c = none

structure CallsOk (s : TaskDistributor size Task) : Prop where
  before : s.m_tpool = none → ∀ c, s.calls c = none
  outside : ∃ n, ∀ k, n ≤ k → s.calls (.external k) = none

theorem CallsOk.update {s s' : TaskDistributor size Task} (h : CallsOk s) (htpool : s'.m_tpool ≠ none)
    (hcalls : s'.calls = Function.update s.calls c call) : CallsOk s' where
  before hnone := absurd hnone htpool
  outside := by
    obtain ⟨n, hn⟩ := h.outside
    rw [hcalls]
    cases c with
    | worker k' =>
      refine ⟨n, fun k hk => ?_⟩
      rw [Function.update_of_ne Caller.noConfusion, hn k hk]
    | external k' =>
      refine ⟨max n (k' + 1), fun k hk => ?_⟩
      have hne : Caller.external k ≠ .external k' := by
        rintro ⟨⟩
        omega
      rw [Function.update_of_ne hne, hn k (Nat.le_trans (Nat.le_max_left ..) hk)]

theorem CallsOk.same {s s' : TaskDistributor size Task} (h : CallsOk s)
    (htpool : s'.m_tpool = none → s.m_tpool = none) (hcalls : s'.calls = s.calls) : CallsOk s' where
  before hnone := hcalls ▸ h.before (htpool hnone)
  outside := hcalls ▸ h.outside

theorem callsOk_step {s s' : TaskDistributor size Task} (h : CallsOk s)
    (hs : (taskDistributor size Task).step s a = some (s', es)) : CallsOk s' := by
  cases taskDistributor_moves hs with
  | refuses => exact h
  | begins _ htpool => exact h.update (htpool ▸ nofun) rfl
  | pushBack hcall => exact h.update (fun hnone => by simp [h.before hnone] at hcall) rfl
  | nests | worker | shutdown => exact h.same id rfl
  | start => exact h.same nofun rfl
  | control hctl => cases hctl with
    | spawns | joins => exact h.same nofun rfl
    | skips | ends => exact h.same id rfl

theorem tpool_step {s s' : TaskDistributor size Task}
    (hs : (taskDistributor size Task).step s a = some (s', es)) :
    s'.m_tpool = none ↔ s.m_tpool = none ∧ a ≠ .start := by
  cases taskDistributor_moves hs with
  | refuses hasks => cases hasks <;> simp
  | begins hasks => cases hasks <;> simp
  | pushBack | nests | worker | shutdown => simp
  | start => simp
  | control hctl => cases hctl with
    | spawns _ htpool => simp [htpool]
    | joins htpool => simp [htpool]
    | skips | ends => simp

theorem tpool_replay (hr : (taskDistributor size Task).replay (TaskDistributor.new size Task) as = some (s, tr)) :
    s.m_tpool = none ↔ .start ∉ as := by
  induction as using List.reverseRecOn generalizing s tr with
  | nil =>
    cases hr
    simp [TaskDistributor.new]
  | append_singleton as a ih =>
    obtain ⟨s', tr', es, hbefore, hs, rfl⟩ := Machine.replay_snoc.mp hr
    rw [tpool_step hs, ih hbefore]
    simp [eq_comm]

/-- Calls are refused without `m_tpool`, and `addTask` of an idle thread is not with it. -/
theorem refusesWork_iff [Inhabited Task] {s : TaskDistributor size Task} (h : CallsOk s) :
    RefusesWork s ↔ s.m_tpool = none := by
  constructor
  · rintro ⟨hrefuses, -⟩
    cases htpool : s.m_tpool with
    | none => rfl
    | some tpool =>
      obtain ⟨n, hn⟩ := h.outside
      have hcan : s.canCall (.external n) = true := by
        simp [TaskDistributor.canCall, hn n (Nat.le_refl n)]
      have hs := hrefuses (.external n) (some default) 0 _ (.addTask 0) hcan
      simp [taskDistributor, hcan, TaskDistributor.addTask, htpool] at hs
  · intro htpool
    refine ⟨?_, h.before htpool⟩
    rintro c task index a (_ | _ | _) hcan <;>
      simp [taskDistributor, hcan, TaskDistributor.addTaskASAP, TaskDistributor.addTask, htpool]

/-- In every state, at rest or not, a distributor refuses work just when it was never started. -/
theorem taskDistributor_refuses [Inhabited Task] (size : Nat) (as : List (DistAct Task))
    (tr : List (DistEv size Task)) (s : TaskDistributor size Task)
    (hr : (taskDistributor size Task).replay (TaskDistributor.new size Task) as = some (s, tr)) :
    RefusesWork s ↔ .start ∉ as := by
  have hnew : CallsOk (TaskDistributor.new size Task) := ⟨fun _ _ => rfl, 0, fun _ _ => rfl⟩
  have h := (Machine.steps_of_replay hr).state_invariant hnew fun _ _ _ _ h _ hs => callsOk_step h hs
  rw [refusesWork_iff h, tpool_replay hr]

end

theorem taskDistributor_refuses_unstarted : ∃ s,
    (taskDistributor 1 Nat).replay (TaskDistributor.new 1 Nat) [.addTask (.external 0) (some 7) 0] =
      some (s, [.refused (.external 0)]) ∧ RefusesWork s :=
  ⟨_, rfl, (taskDistributor_refuses 1 [.addTask (.external 0) (some 7) 0] _ _ rfl).mpr (by simp)⟩

/-- After `start` and `shutdown` have returned, a task is accepted that nobody runs. -/
theorem taskDistributor_accepts_stopped : ¬∀ as tr s,
    (taskDistributor 1 Nat).replay (TaskDistributor.new 1 Nat) as = some (s, tr) → AtRest s → RefusesWork s := by
  intro h
  have hrest := h [.start, .control, .control, .shutdown, .worker 0, .control, .control] _ _ rfl ⟨rfl, by decide⟩
  have hs := hrest.1 (.external 0) (some 7) 0 _ (.addTask 0) rfl
  exact absurd (congrArg Prod.snd (Option.some.inj hs)) nofun

end Andren.Network
