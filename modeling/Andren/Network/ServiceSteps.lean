import Andren.Machine.OrderedMap
import Andren.Network.EventLoop

/-!
# The steps of an event loop

`EventLoop::start` queues a processing step for each thread. A step walks over the registry of its
thread and calls the services; at its end it queues the next step for its own thread.

No step is lost and none is doubled: each thread has as many chains of steps as there were calls of
`start`, and never runs two steps at a time (`eventLoop_keeps_steps`).
-/

namespace Andren.Network

open Machines
open Std (TreeMap)

inductive StepPc
  | idle
  /-- The range-for is about to compare its iterator with the end. -/
  | walk (iter : Option Int)
  /-- The service at `key` is processed; `held` is false when its entry was erased. -/
  | inside (key : Int) (held : Bool)
  /-- In its call of `startNextStep`. -/
  | next
  | finished
  deriving DecidableEq

structure ServiceLoop (n : BitVec 32) where
  loop : EventLoop n
  steps : Nat → StepPc
  /-- The callers inside `start`, and the index that each has come to. -/
  starts : List (Caller × Nat)

inductive ServiceAct (n : BitVec 32)
  | start (c : Caller)
  /-- `startNextStep`, up to the queue's mutex. -/
  | startNextStep (c : Caller)
  | visit (i : Fin n.toNat)
  /-- The service that is processed returns. -/
  | advance (i : Fin n.toNat)
  | exec (a : LoopAct)

inductive ServiceEv (n : BitVec 32)
  | loop (e : LoopEv n)
  | started (c : Caller)
  | began (i : Fin n.toNat)
  | processed (i : Fin n.toNat) (key : Int) (service : EventsService)
  /-- The walk is at the end. -/
  | walked (i : Fin n.toNat)
  deriving DecidableEq

namespace ServiceLoop

variable {n : BitVec 32}

/-- The index for which `c` is about to add a step, or is adding it. -/
def index? (s : ServiceLoop n) (c : Caller) : Option Nat :=
  match s.starts.lookup c, c with
  | some index, _ => some index
  | none, .worker k => if s.steps k = .next then some k else none
  | none, .external _ => none

def inStep (s : ServiceLoop n) (k : Nat) : Bool := (s.loop.m_exec.frames k).head? == some .processEvents

def free (s : ServiceLoop n) (c : Caller) : Bool :=
  (s.index? c).isNone && match c with
    | .external _ => true
    | .worker k => !s.inStep k || match s.steps k with
      | .inside .. => true
      | _ => false

/-- What the loop does besides adding steps. -/
def allows (s : ServiceLoop n) : LoopAct → Bool
  | .call c _ => s.free c
  | .startNextStep .. => false
  | .worker k => (s.index? (.worker k)).isNone && (!s.inStep k || s.steps k == .finished)
  | .construct | .pushBack _ | .shutdown | .control => true

def turn (s : ServiceLoop n) (k : Nat) (pc : StepPc) : ServiceLoop n :=
  { s with steps := Function.update s.steps k pc }

def added (s : ServiceLoop n) (c : Caller) : ServiceLoop n :=
  match s.starts.lookup c, c with
  | some index, _ => { s with
      starts := (if index + 1 < n.toNat then [(c, index + 1)] else []) ++ s.starts.erase (c, index) }
  | none, .worker k => s.turn k .finished
  | none, .external _ => s

def note (s : ServiceLoop n) : LoopEv n → ServiceLoop n
  | .erased i service_key => match s.steps i with
    | .inside key _ =>
      if service_key.toInt = key then s.turn i (.inside key false) else s
    | _ => s
  | _ => s

def run (s : ServiceLoop n) (a : LoopAct) : Option (ServiceLoop n × List (LoopEv n)) := do
  let (loop, es) ← (eventLoop n).step s.loop a
  pure (es.foldl note { s with loop := loop }, es)

def leave (s : ServiceLoop n) (k : Nat) : ServiceLoop n :=
  if s.inStep k then s.turn k .idle else s

end ServiceLoop

open ServiceLoop in
/-- An event loop with what its services do, and any number of clients. -/
def serviceLoop (n : BitVec 32) : Machine (ServiceLoop n) (ServiceAct n) (ServiceEv n) where
  init := ⟨.new n, fun _ => .idle, []⟩
  step s
    | .start c =>
      if s.loop.constructed && s.loop.m_exec.canCall c && s.free c then
        if s.loop.valid then some ({ s with starts := (c, 0) :: s.starts }, [.started c])
        else some (s, [.loop (.refused c)])
      else none
    | .startNextStep c => do
      let index ← s.index? c
      let (s, es) ← s.run (.startNextStep c index)
      pure (if es.isEmpty then s else s.added c, es.map .loop)
    | .visit i =>
      if s.inStep i then match s.steps i with
        | .walk none => some (s.turn i .next, [.walked i])
        | .walk (some key) => do
          let service ← (s.loop.m_pdata i)[key]?
          pure (s.turn i (.inside key true), [.processed i key service])
        | _ => none
      else none
    | .advance i =>
      if s.inStep i && s.loop.m_exec.canCall (.worker i) && s.free (.worker i) then match s.steps i with
        | .inside key true => some (s.turn i (.walk (OrderedMap.next (s.loop.m_pdata i) key)), [])
        | _ => none
      else none
    | .exec a =>
      if s.allows a then match a with
        | .worker k => do
          let (s', es) ← (s.leave k).run (.worker k)
          if (s.loop.m_exec.frames k).isEmpty && s'.inStep k then
            -- `m_pdata[index]` has an entry for each thread
            if h : k < n.toNat then
              pure (s'.turn k (.walk (OrderedMap.first (s'.loop.m_pdata ⟨k, h⟩))),
                es.map .loop ++ [.began ⟨k, h⟩])
            else none
          else pure (s', es.map .loop)
        | .pushBack c => do
          let (s', es) ← s.run (.pushBack c)
          match s.loop.m_exec.calls c with
          | some (_, .processEvents) => pure (s'.added c, es.map .loop)
          | _ => pure (s', es.map .loop)
        | a => do
          let (s', es) ← s.run a
          pure (s', es.map .loop)
      else none

-- ---------------------------------------------------------------------------
-- What the loop asks of its executor
-- ---------------------------------------------------------------------------

section

variable {n : BitVec 32}

inductive Asked : LoopAct → DistAct LoopTask → Prop
  | construct : Asked .construct .start
  | call (c : Caller) (op : ServiceOp) (index : Nat) :
      Asked (.call c (some op)) (.addTaskASAP c (some (.config c op)) index)
  | startNextStep (c : Caller) (index : Nat) :
      Asked (.startNextStep c index) (.addTask c (some .processEvents) index)
  | pushBack (c : Caller) : Asked (.pushBack c) (.pushBack c)
  | worker (k : Nat) : Asked (.worker k) (.worker k)
  | shutdown : Asked .shutdown .shutdown
  | control : Asked .control .control

/-- A call that is refused asks nothing. -/
inductive LoopMoves (d d' : TaskDistributor n.toNat LoopTask) : LoopAct → Prop
  | refused (c : Caller) (op : Option ServiceOp) : d' = d → LoopMoves d d' (.call c op)
  | asked {act : DistAct LoopTask} {des : List (DistEv n.toNat LoopTask)} : Asked a act → StartOnce d act →
      (taskDistributor n.toNat LoopTask).step d act = some (d', des) → LoopMoves d d' a

theorem loop_moves {s s' : EventLoop n} (hs : (eventLoop n).step s a = some (s', es)) :
    LoopMoves s.m_exec s'.m_exec a := by
  have hexec {act : DistAct LoopTask} (hask : Asked a act) (honce : StartOnce s.m_exec act)
      (hs : s.exec act = some (s', es)) : LoopMoves s.m_exec s'.m_exec a := by
    obtain ⟨des, hstep, -⟩ := exec_shows hs
    exact .asked hask honce hstep
  cases a with
  | construct =>
    obtain ⟨hpool, hs⟩ := Option.ite_none_right_eq_some.mp hs
    exact hexec .construct (Option.isNone_iff_eq_none.mp hpool) hs
  | call c op =>
    obtain ⟨-, hs⟩ := Option.ite_none_right_eq_some.mp hs
    cases op with
    | none =>
      cases hs
      exact .refused c _ rfl
    | some op =>
      dsimp only at hs
      split at hs
      · simp only [Option.bind_eq_bind, Option.bind_eq_some_iff] at hs
        obtain ⟨r, -, hs⟩ := hs
        exact hexec (.call c op r.toNat) trivial hs
      · cases hs
        exact .refused c _ rfl
  | startNextStep c index =>
    obtain ⟨-, hs⟩ := Option.ite_none_right_eq_some.mp hs
    exact hexec (.startNextStep c index) trivial hs
  | pushBack c => exact hexec (.pushBack c) trivial hs
  | worker k =>
    obtain ⟨⟨s₁, es₁⟩, hleave, hs⟩ := Option.bind_eq_some_iff.mp hs
    obtain ⟨⟨s₂, es₂⟩, hrun, hs⟩ := Option.bind_eq_some_iff.mp hs
    cases hs
    obtain ⟨des, hstep, -⟩ := exec_shows hrun
    rw [(leave_shows hleave (.external 0) 0).1] at hstep
    exact .asked (.worker k) trivial hstep
  | shutdown =>
    obtain ⟨-, hs⟩ := Option.ite_none_right_eq_some.mp hs
    exact hexec .shutdown trivial hs
  | control => exact hexec .control trivial hs

/-- A loop that is constructed refuses no step. -/
theorem startNextStep_calls {s s' : EventLoop n}
    (hs : (eventLoop n).step s (.startNextStep c index) = some (s', es)) :
    es = [] ∧ s.m_exec.calls c = none ∧ s'.m_exec = { s.m_exec with
      calls := Function.update s.m_exec.calls c (some (queueIndex n.toNat index, .processEvents)) } := by
  obtain ⟨hconstructed, hs⟩ := Option.ite_none_right_eq_some.mp hs
  have hpool : s.m_exec.m_tpool.isSome = true := (Bool.and_eq_true_iff.mp hconstructed).1
  obtain ⟨tpool, htpool⟩ := Option.isSome_iff_exists.mp hpool
  obtain ⟨⟨d, des⟩, hstep, hs⟩ := Option.bind_eq_some_iff.mp hs
  obtain ⟨hcan, hstep⟩ := Option.ite_none_right_eq_some.mp hstep
  unfold TaskDistributor.addTask at hstep
  split at hstep
  · rename_i t _ heq
    cases heq
    cases hstep
    cases hs
    exact ⟨rfl, Option.isNone_iff_eq_none.mp (Bool.and_eq_true_iff.mp hcan).1, rfl⟩
  · rename_i hno
    exact (hno tpool _ htpool rfl).elim

-- ---------------------------------------------------------------------------
-- The steps there are
-- ---------------------------------------------------------------------------

def StepPc.alive : StepPc → Bool
  | .walk _ | .inside .. | .next => true
  | .idle | .finished => false

/-- The steps that thread `i` has: those queued, those that a `start` has yet to add, and the one
that runs while it has the call for its successor ahead. -/
def ServiceLoop.chains (s : ServiceLoop n) (i : Fin n.toNat) : Nat :=
  (s.loop.m_exec.waiting (queueIndex n.toNat i)).count .processEvents +
    s.starts.countP (fun start => start.2 ≤ i.val) + (s.steps i).alive.toNat

def startsOf (tr : List (ServiceEv n)) : Nat := tr.countP fun
  | .started _ => true
  | _ => false

structure StepsOk (s : ServiceLoop n) : Prop where
  dist : DistOk s.loop.m_exec
  pool : PoolOk s.loop.m_exec
  frames : ∀ k, (s.loop.m_exec.frames k).count .processEvents = if s.steps k = .idle then 0 else 1
  threads : ∀ k, s.steps k ≠ .idle → k < n.toNat
  starts : ∀ start ∈ s.starts, start.2 < n.toNat
  calls : ∀ c i, s.loop.m_exec.calls c = some (i, .processEvents) →
    ∃ index, s.index? c = some index ∧ i = queueIndex n.toNat index

variable {s s' s₁ : ServiceLoop n}

theorem queueIndex_inj {i j : Nat} (hi : i < n.toNat) (hj : j < n.toNat) :
    queueIndex n.toNat i = queueIndex n.toNat j ↔ i = j := by
  rw [Fin.ext_iff, queueIndex_val hi, queueIndex_val hj]

theorem index?_eq_some : s.index? c = some index ↔ s.starts.lookup c = some index ∨
    s.starts.lookup c = none ∧ c = .worker index ∧ s.steps index = .next := by
  unfold ServiceLoop.index?
  cases s.starts.lookup c with
  | some j => simp
  | none =>
    cases c with
    | external k => simp
    | worker k =>
      simp only [Option.ite_none_right_eq_some, Option.some.injEq, reduceCtorEq, true_and, false_or,
        Caller.worker.injEq]
      constructor
      · rintro ⟨hnext, rfl⟩
        exact ⟨rfl, hnext⟩
      · rintro ⟨rfl, hnext⟩
        exact ⟨hnext, rfl⟩

theorem steps_turn (s : ServiceLoop n) (k : Nat) (pc : StepPc) (j : Nat) :
    (s.turn k pc).steps j = if j = k then pc else s.steps j := Function.update_apply ..

inductive StepPc.Marks : StepPc → StepPc → Prop
  | same (pc : StepPc) : Marks pc pc
  | erased (key : Int) (held : Bool) : Marks (.inside key held) (.inside key false)

theorem StepPc.Marks.trans {pc pc' pc'' : StepPc} (h : Marks pc pc') (h' : Marks pc' pc'') : Marks pc pc'' := by
  cases h with
  | same => exact h'
  | erased key held =>
    cases h' with
    | same => exact .erased key held
    | erased => exact .erased key held

theorem StepPc.Marks.idle_iff {pc pc' : StepPc} (h : Marks pc pc') : pc' = .idle ↔ pc = .idle := by
  cases h with
  | same => rfl
  | erased => exact iff_of_false nofun nofun

theorem StepPc.Marks.next_iff {pc pc' : StepPc} (h : Marks pc pc') : pc' = .next ↔ pc = .next := by
  cases h with
  | same => rfl
  | erased => exact iff_of_false nofun nofun

theorem StepPc.Marks.alive_eq {pc pc' : StepPc} (h : Marks pc pc') : pc'.alive = pc.alive := by
  cases h <;> rfl

structure Keeps (s s' : ServiceLoop n) : Prop where
  starts : s'.starts = s.starts
  steps : ∀ k, (s.steps k).Marks (s'.steps k)

theorem keeps_note (s : ServiceLoop n) (e : LoopEv n) : (s.note e).loop = s.loop ∧ Keeps s (s.note e) := by
  cases e with
  | erased i service_key =>
    simp only [ServiceLoop.note]
    split
    · rename_i key held hpc
      split
      · refine ⟨rfl, rfl, fun k => ?_⟩
        rw [steps_turn]
        split
        · rename_i hk
          rw [hk, hpc]
          exact .erased key held
        · exact .same _
      · exact ⟨rfl, rfl, fun k => .same _⟩
    · exact ⟨rfl, rfl, fun k => .same _⟩
  | _ => exact ⟨rfl, rfl, fun k => .same _⟩

theorem keeps_notes (s : ServiceLoop n) (es : List (LoopEv n)) :
    (es.foldl ServiceLoop.note s).loop = s.loop ∧ Keeps s (es.foldl ServiceLoop.note s) := by
  induction es generalizing s with
  | nil => exact ⟨rfl, rfl, fun k => .same _⟩
  | cons e es ih =>
    obtain ⟨hloop, hkeeps⟩ := keeps_note s e
    obtain ⟨hloop', hkeeps'⟩ := ih (s.note e)
    exact ⟨hloop'.trans hloop, hkeeps'.starts.trans hkeeps.starts,
      fun k => (hkeeps.steps k).trans (hkeeps'.steps k)⟩

theorem serviceLoop_run_eq (hs : s.run a = some (s', es)) :
    (eventLoop n).step s.loop a = some (s'.loop, es) ∧ Keeps s s' := by
  simp only [ServiceLoop.run, Option.bind_eq_bind, Option.bind_eq_some_iff] at hs
  obtain ⟨⟨loop, es⟩, hstep, hs⟩ := hs
  cases hs
  obtain ⟨hloop, hkeeps⟩ := keeps_notes { s with loop := loop } es
  exact ⟨by rw [hstep, hloop], hkeeps.starts, hkeeps.steps⟩

theorem Keeps.index?_eq (h : Keeps s s') (c : Caller) : s'.index? c = s.index? c := by
  unfold ServiceLoop.index?
  rw [h.starts]
  cases s.starts.lookup c with
  | some index => rfl
  | none =>
    cases c with
    | external k => rfl
    | worker k => simp only [(h.steps k).next_iff]

theorem Keeps.chains_eq (h : Keeps s s') (hwaiting : ∀ i, (s'.loop.m_exec.waiting i).count .processEvents =
    (s.loop.m_exec.waiting i).count .processEvents) (i : Fin n.toNat) : s'.chains i = s.chains i := by
  unfold ServiceLoop.chains
  rw [h.starts, hwaiting, (h.steps i).alive_eq]

theorem StepsOk.keeps (h : StepsOk s) (hkeeps : Keeps s s') (hdist : DistOk s'.loop.m_exec)
    (hpool : PoolOk s'.loop.m_exec)
    (hframes : ∀ k, (s'.loop.m_exec.frames k).count .processEvents =
      (s.loop.m_exec.frames k).count .processEvents)
    (hcalls : ∀ c i, s'.loop.m_exec.calls c = some (i, .processEvents) →
      s.loop.m_exec.calls c = some (i, .processEvents)) : StepsOk s' where
  dist := hdist
  pool := hpool
  frames k := by simp only [hframes, h.frames, (hkeeps.steps k).idle_iff]
  threads k hk := h.threads k fun hidle => hk ((hkeeps.steps k).idle_iff.mpr hidle)
  starts := hkeeps.starts ▸ h.starts
  calls c i hcall := by
    rw [hkeeps.index?_eq]
    exact h.calls c i (hcalls c i hcall)

-- ---------------------------------------------------------------------------
-- The steps of the machine
-- ---------------------------------------------------------------------------

theorem StepsOk.quiet (h : StepsOk s) (hkeeps : Keeps s s') (honce : StartOnce s.loop.m_exec act)
    (hstep : (taskDistributor n.toNat LoopTask).step s.loop.m_exec act = some (s'.loop.m_exec, des))
    (hsame : CopiesSame .processEvents s.loop.m_exec s'.loop.m_exec) : StepsOk s' ∧ ∀ i, s'.chains i = s.chains i :=
  ⟨h.keeps hkeeps (taskDistributor_step h.dist honce hstep).1 (poolOk_step h.dist h.pool honce hstep)
    hsame.frames hsame.calls, hkeeps.chains_eq hsame.waiting⟩

theorem StepsOk.exec (h : StepsOk s) (hallow : s.allows a = true) (hworker : ∀ k, a ≠ .worker k)
    (hpush : ∀ c, a ≠ .pushBack c) (hs : s.run a = some (s', es)) :
    StepsOk s' ∧ ∀ i, s'.chains i = s.chains i := by
  obtain ⟨hstep, hkeeps⟩ := serviceLoop_run_eq hs
  cases loop_moves hstep with
  | refused c op heq =>
    refine ⟨h.keeps hkeeps (heq ▸ h.dist) (heq ▸ h.pool) (by simp only [heq, implies_true]) ?_,
      hkeeps.chains_eq ?_⟩
    · rw [heq]
      exact fun _ _ => id
    · simp only [heq, implies_true]
  | @asked _ act des hask honce hdist =>
    refine h.quiet hkeeps honce hdist (copiesSame_of_quiet h.dist h.pool honce hdist ?_ ?_ ?_ ?_)
    · rintro k rfl
      cases hask
      exact hworker k rfl
    · intro c i hbegins
      cases hask with
      | startNextStep => cases hallow
      | _ => cases hbegins
    · rintro c t index rfl
      cases hask
      nofun
    · intro c i hmem
      have haccepted := taskDistributor_shown h.dist hdist
      cases haccepted with
      | accepted =>
        cases List.mem_singleton.mp hmem
        obtain rfl := pushBack_of_accepted hdist
        cases hask
        exact hpush c rfl
      | nothing | refused | executed | inplace => simp at hmem

theorem lookup_erase_of_ne [DecidableEq κ] [DecidableEq β] {a b : κ} (hne : a ≠ b) (v : β) (l : List (κ × β)) :
    (l.erase (b, v)).lookup a = l.lookup a := by
  induction l with
  | nil => rfl
  | cons p l ih =>
    rw [List.erase_cons]
    split
    · rename_i hp
      obtain rfl := beq_iff_eq.mp hp
      rw [List.lookup_cons, beq_false_of_ne hne]
    · rw [List.lookup_cons, List.lookup_cons, ih]

theorem index?_turn (hne : c ≠ .worker k) (pc : StepPc) : (s.turn k pc).index? c = s.index? c := by
  unfold ServiceLoop.index? ServiceLoop.turn
  dsimp only
  cases s.starts.lookup c with
  | some => rfl
  | none =>
    cases c with
    | external => rfl
    | worker k' =>
      have hk : k' ≠ k := fun heq => hne (heq ▸ rfl)
      simp only [Function.update_of_ne hk]

structure Added (s s' : ServiceLoop n) (c : Caller) (index : Nat) : Prop where
  loop : s'.loop = s.loop
  idle : ∀ k, s'.steps k = .idle ↔ s.steps k = .idle
  starts : ∀ start ∈ s'.starts, start.2 < n.toNat
  others : ∀ c', c' ≠ c → s'.index? c' = s.index? c'
  chains : ∀ i : Fin n.toNat, s'.starts.countP (fun start => start.2 ≤ i.val) + (s'.steps i).alive.toNat +
    (if index = i then 1 else 0) = s.starts.countP (fun start => start.2 ≤ i.val) + (s.steps i).alive.toNat

theorem added_spec (h : s.index? c = some index) (hstarts : ∀ start ∈ s.starts, start.2 < n.toNat) :
    Added s (s.added c) c index := by
  unfold ServiceLoop.added
  rcases index?_eq_some.mp h with hlookup | ⟨hlookup, rfl, hnext⟩
  · rw [hlookup]
    have hmem : (c, index) ∈ s.starts := by
      obtain ⟨l₁, l₂, heq, -⟩ := List.lookup_eq_some_iff.mp hlookup
      simp [heq]
    refine ⟨rfl, fun k => .rfl, ?_, ?_, ?_⟩
    · intro start hstart
      rcases List.mem_append.mp hstart with hnew | hold
      · split at hnew
        · rename_i hlt
          rw [List.mem_singleton.mp hnew]
          exact hlt
        · cases hnew
      · exact hstarts start (List.mem_of_mem_erase hold)
    · intro c' hne
      have hold : ((if index + 1 < n.toNat then [(c, index + 1)] else []) ++
          s.starts.erase (c, index)).lookup c' = s.starts.lookup c' := by
        rw [List.lookup_append, lookup_erase_of_ne hne]
        split
        · rw [List.lookup_cons, beq_false_of_ne hne]
          rfl
        · rfl
      unfold ServiceLoop.index?
      dsimp only
      rw [hold]
    · intro i
      have hcount := (List.perm_cons_erase hmem).countP_eq fun start => decide (start.2 ≤ i.val)
      have hi := i.isLt
      have hnew : (if index + 1 < n.toNat then [(c, index + 1)] else []).countP
          (fun start => decide (start.2 ≤ i.val)) = if index + 1 ≤ i.val then 1 else 0 := by
        by_cases hlt : index + 1 < n.toNat
        · rw [if_pos hlt, List.countP_singleton]
          simp only [decide_eq_true_eq]
        · rw [if_neg hlt, List.countP_nil, if_neg (by omega)]
      rw [hcount, List.countP_cons, List.countP_append, hnew]
      simp only [decide_eq_true_eq]
      have hsum : (if index + 1 ≤ i.val then 1 else 0) + (if index = i.val then 1 else 0) =
          if index ≤ i.val then 1 else 0 := by
        split_ifs <;> omega
      omega
  · rw [hlookup]
    refine ⟨rfl, fun j => ?_, hstarts, ?_, ?_⟩
    · rw [steps_turn]
      split
      · rename_i hj
        rw [hj, hnext]
        exact iff_of_false nofun nofun
      · rfl
    · intro c' hne
      exact index?_turn hne _
    · intro i
      change s.starts.countP _ + ((s.turn index .finished).steps i).alive.toNat + _ = _
      rw [steps_turn]
      by_cases hi : i.val = index
      · rw [if_pos hi, if_pos hi.symm, hi, hnext]
        rfl
      · rw [if_neg hi, if_neg (Ne.symm hi)]
        rfl

theorem StepsOk.index?_lt (h : StepsOk s) (hindex : s.index? c = some index) : index < n.toNat := by
  rcases index?_eq_some.mp hindex with hlookup | ⟨-, -, hnext⟩
  · obtain ⟨l₁, l₂, heq, -⟩ := List.lookup_eq_some_iff.mp hlookup
    exact h.starts (c, index) (by simp [heq])
  · exact h.threads index (by rw [hnext]; nofun)

theorem StepsOk.pushBack (h : StepsOk s) (hs : s.run (.pushBack c) = some (s', es)) : ∃ i t,
    s.loop.m_exec.calls c = some (i, t) ∧ (t ≠ .processEvents → StepsOk s' ∧ ∀ j, s'.chains j = s.chains j) ∧
      (t = .processEvents → StepsOk (s'.added c) ∧ ∀ j, (s'.added c).chains j = s.chains j) := by
  obtain ⟨hstep, hkeeps⟩ := serviceLoop_run_eq hs
  cases loop_moves hstep with
  | @asked _ act des hask honce hdist =>
    cases hask
    have hdist' := (taskDistributor_step h.dist honce hdist).1
    have hpool' := poolOk_step h.dist h.pool honce hdist
    have hwaiting := waiting_step h.dist honce hdist
    obtain ⟨i, t, hcall, hcalls, hframes, rfl⟩ := calls_pushBack hdist
    refine ⟨i, t, hcall, fun ht => ?_, ?_⟩
    · refine h.quiet hkeeps honce hdist (copiesSame_of_quiet h.dist h.pool honce hdist nofun nofun nofun ?_)
      intro c' i' hmem
      cases List.mem_singleton.mp hmem
      exact ht rfl
    · rintro rfl
      obtain ⟨index, hindex, rfl⟩ := h.calls c i hcall
      have hlt := h.index?_lt hindex
      rw [← hkeeps.index?_eq] at hindex
      obtain ⟨hloop, hidle, hstarts, hothers, hchains⟩ := added_spec hindex (hkeeps.starts ▸ h.starts)
      refine ⟨⟨hloop ▸ hdist', hloop ▸ hpool', fun k => ?_, fun k hk => ?_, hstarts, ?_⟩, fun j => ?_⟩
      · simp only [hloop, hframes, h.frames, hidle, (hkeeps.steps k).idle_iff]
      · refine h.threads k fun hi => hk ?_
        rwa [hidle, (hkeeps.steps k).idle_iff]
      · intro c' i' hcall'
        rw [hloop, hcalls, Function.update_apply] at hcall'
        split at hcall'
        · cases hcall'
        · rename_i hne
          obtain ⟨index', hindex', hi'⟩ := h.calls c' i' hcall'
          exact ⟨index', by rw [hothers c' hne, hkeeps.index?_eq, hindex'], hi'⟩
      · have heq := hwaiting (queueIndex n.toNat j)
        have hsum := hchains j
        rw [hkeeps.starts, (hkeeps.steps j).alive_eq] at hsum
        simp only [accepted, executed, List.nil_append, queueIndex_inj hlt j.isLt] at heq
        have hcount : (if index = j.val then [LoopTask.processEvents] else []).count .processEvents =
            if index = j.val then 1 else 0 := by
          split <;> rfl
        unfold ServiceLoop.chains
        rw [hloop, ← heq, List.count_append, hcount]
        omega

theorem StepsOk.startNextStep (h : StepsOk s) (hindex : s.index? c = some index)
    (hs : s.run (.startNextStep c index) = some (s', es)) :
    es = [] ∧ StepsOk s' ∧ ∀ i, s'.chains i = s.chains i := by
  obtain ⟨hstep, hkeeps⟩ := serviceLoop_run_eq hs
  obtain ⟨hes, -, hexec⟩ := startNextStep_calls hstep
  cases loop_moves hstep with
  | asked hask honce hdist =>
    cases hask
    have hdist' := (taskDistributor_step h.dist honce hdist).1
    have hpool' := poolOk_step h.dist h.pool honce hdist
    refine ⟨hes, ⟨hdist', hpool', fun k => ?_, fun k hk => ?_, hkeeps.starts ▸ h.starts, ?_⟩,
      hkeeps.chains_eq ?_⟩
    · have hframes : s'.loop.m_exec.frames = s.loop.m_exec.frames := hexec ▸ frames_same rfl
      simp only [hframes, h.frames, (hkeeps.steps k).idle_iff]
    · exact h.threads k fun hi => hk ((hkeeps.steps k).idle_iff.mpr hi)
    · intro c' i hcall
      rw [hkeeps.index?_eq]
      rw [hexec] at hcall
      change Function.update s.loop.m_exec.calls c _ c' = _ at hcall
      rw [Function.update_apply] at hcall
      split at hcall
      · rename_i hc
        cases hcall
        exact ⟨index, hc ▸ hindex, rfl⟩
      · exact h.calls c' i hcall
    · intro i
      rw [hexec]
      rfl

theorem index?_turn_some (hnext : s.steps k ≠ .next) (hindex : s.index? c = some index) :
    (s.turn k pc).index? c = some index := by
  refine index?_eq_some.mpr ((index?_eq_some.mp hindex).imp_right ?_)
  rintro ⟨hnone, hc, hstep⟩
  have hne : index ≠ k := by
    rintro rfl
    exact hnext hstep
  exact ⟨hnone, hc, by rw [steps_turn, if_neg hne, hstep]⟩

/-- Only worker `k` moves, and no caller leaves the call it is in. -/
structure StepMoves (s s' : ServiceLoop n) (k : Nat) : Prop where
  starts : s'.starts = s.starts
  index? : ∀ c index, s.index? c = some index → s'.index? c = some index
  steps : ∀ j, j ≠ k → (s.steps j).Marks (s'.steps j)
  frames : ∀ j, j ≠ k → s'.loop.m_exec.frames j = s.loop.m_exec.frames j

theorem StepsOk.moves (h : StepsOk s) (hmoves : StepMoves s s' k) (hdist : DistOk s'.loop.m_exec)
    (hpool : PoolOk s'.loop.m_exec)
    (hcalls : ∀ c i, s'.loop.m_exec.calls c = some (i, .processEvents) →
      s.loop.m_exec.calls c = some (i, .processEvents))
    (hframes : (s'.loop.m_exec.frames k).count .processEvents = if s'.steps k = .idle then 0 else 1)
    (hthread : s'.steps k ≠ .idle → k < n.toNat) : StepsOk s' where
  dist := hdist
  pool := hpool
  frames j := by
    rcases eq_or_ne j k with rfl | hne
    · exact hframes
    · simp only [hmoves.frames j hne, h.frames, (hmoves.steps j hne).idle_iff]
  threads j hj := by
    rcases eq_or_ne j k with rfl | hne
    · exact hthread hj
    · exact h.threads j fun hidle => hj ((hmoves.steps j hne).idle_iff.mpr hidle)
  starts := hmoves.starts ▸ h.starts
  calls c i hcall := by
    obtain ⟨index, hindex, hi⟩ := h.calls c i (hcalls c i hcall)
    exact ⟨index, hmoves.index? c index hindex, hi⟩

theorem StepMoves.chains_eq (h : StepMoves s s' k)
    (hwaiting : ∀ i : Fin n.toNat, (s.loop.m_exec.waiting (queueIndex n.toNat i)).count .processEvents =
      (if i.val = k then b else 0) + (s'.loop.m_exec.waiting (queueIndex n.toNat i)).count .processEvents)
    (halive : (s'.steps k).alive.toNat = b + (s.steps k).alive.toNat) (i : Fin n.toNat) :
    s'.chains i = s.chains i := by
  unfold ServiceLoop.chains
  rw [h.starts, hwaiting]
  split
  · rename_i hi
    rw [hi, halive]
    omega
  · rename_i hi
    rw [(h.steps i hi).alive_eq, Nat.zero_add]

theorem StepMoves.trans (h : StepMoves s s₁ k) (h' : StepMoves s₁ s' k) : StepMoves s s' k where
  starts := h'.starts.trans h.starts
  index? c index hc := h'.index? c index (h.index? c index hc)
  steps j hne := (h.steps j hne).trans (h'.steps j hne)
  frames j hne := (h'.frames j hne).trans (h.frames j hne)

theorem moves_turn (hnext : s.steps k ≠ .next) (pc : StepPc) : StepMoves s (s.turn k pc) k where
  starts := rfl
  index? _ _ hc := index?_turn_some hnext hc
  steps j hne := by
    rw [steps_turn, if_neg hne]
    exact .same _
  frames _ _ := rfl

/-- A step that goes on has not come to its call, or is past it. -/
theorem StepsOk.turn (h : StepsOk s) (hidle : s.steps k ≠ .idle) (hnext : s.steps k ≠ .next) (hpc : pc ≠ .idle)
    (halive : pc.alive = (s.steps k).alive) :
    StepsOk (s.turn k pc) ∧ ∀ i, (s.turn k pc).chains i = s.chains i := by
  have hmoves := moves_turn hnext pc
  refine ⟨h.moves hmoves h.dist h.pool (fun _ _ => id) ?_ fun _ => h.threads k hidle,
    hmoves.chains_eq (b := 0) (fun i => ?_) ?_⟩
  · rw [steps_turn, if_pos rfl, if_neg hpc]
    exact (h.frames k).trans (if_neg hidle)
  · rw [ite_self, Nat.zero_add]
    rfl
  · rw [steps_turn, if_pos rfl, halive, Nat.zero_add]

/-- Only a step that is done returns, so that nothing but `idle` changes. -/
theorem leave_spec (hallow : s.allows (.worker k) = true) : (s.leave k).loop = s.loop ∧
    (s.leave k).starts = s.starts ∧ (∀ c, (s.leave k).index? c = s.index? c) ∧
    ∀ j, ((s.leave k).steps j).alive = (s.steps j).alive ∧
      (s.leave k).steps j = if j = k ∧ s.inStep k = true then .idle else s.steps j := by
  unfold ServiceLoop.leave
  split
  · rename_i hin
    have hpc : s.steps k = .finished := by
      simpa [ServiceLoop.allows, hin] using (Bool.and_eq_true_iff.mp hallow).2
    refine ⟨rfl, rfl, fun c => ?_, fun j => ?_⟩
    · refine Option.ext fun index => ?_
      rw [index?_eq_some, index?_eq_some]
      refine or_congr .rfl (and_congr_right fun _ => and_congr_right fun _ => ?_)
      rw [steps_turn]
      split
      · rename_i heq
        rw [heq, hpc]
        exact iff_of_false nofun nofun
      · rfl
    · rw [steps_turn]
      by_cases hj : j = k
      · rw [if_pos hj, if_pos ⟨hj, hin⟩, hj, hpc]
        exact ⟨rfl, rfl⟩
      · rw [if_neg hj, if_neg fun h => hj h.1]
        exact ⟨rfl, rfl⟩
  · rename_i hout
    refine ⟨rfl, rfl, fun _ => rfl, fun j => ⟨rfl, ?_⟩⟩
    rw [if_neg fun h => hout h.2]

theorem inStep_eq_true : s.inStep k = true ↔ ∃ outer, s.loop.m_exec.frames k = .processEvents :: outer := by
  rw [ServiceLoop.inStep, beq_iff_eq, List.head?_eq_some_iff]

theorem StepsOk.returned (h : StepsOk s) (k : Nat) :
    (s.loop.m_exec.frames k).tail.count .processEvents =
      if s.inStep k = true ∨ s.steps k = .idle then 0 else 1 := by
  have hcount := h.frames k
  cases hframes : s.loop.m_exec.frames k with
  | nil =>
    rw [hframes] at hcount
    have hidle : s.steps k = .idle := by
      by_contra hne
      rw [if_neg hne] at hcount
      cases hcount
    rw [if_pos (.inr hidle)]
    rfl
  | cons t outer =>
    rw [hframes] at hcount
    by_cases ht : t = .processEvents
    · subst ht
      rw [if_pos (.inl (inStep_eq_true.mpr ⟨outer, hframes⟩)), List.tail_cons]
      rw [List.count_cons_self] at hcount
      split at hcount
      · cases hcount
      · exact Nat.succ.inj hcount
    · have hout : ¬s.inStep k = true := by
        rw [inStep_eq_true, hframes]
        rintro ⟨outer', heq⟩
        exact ht (List.cons.inj heq).1
      rw [List.count_cons_of_ne ht] at hcount
      rw [List.tail_cons, hcount]
      simp [hout]

theorem count_begun (k j : Nat) (t : LoopTask) : (if k = j then [t] else []).count .processEvents =
    if j = k then (if t = .processEvents then 1 else 0) else 0 := by
  by_cases hj : k = j
  · rw [if_pos hj, if_pos hj.symm, List.count_singleton]
    simp only [beq_iff_eq]
  · rw [if_neg hj, if_neg (Ne.symm hj), List.count_nil]

theorem StepsOk.worker (h : StepsOk s) (hallow : s.allows (.worker k) = true)
    (hs : (s.leave k).run (.worker k) = some (s', es)) :
    (s.loop.m_exec.frames k = [] → s'.inStep k = true → k < n.toNat → ∀ iter,
      StepsOk (s'.turn k (.walk iter)) ∧ ∀ i, (s'.turn k (.walk iter)).chains i = s.chains i) ∧
    (¬(s.loop.m_exec.frames k = [] ∧ s'.inStep k = true) → StepsOk s' ∧ ∀ i, s'.chains i = s.chains i) := by
  obtain ⟨hloop, hstarts, hindex, hsteps⟩ := leave_spec hallow
  obtain ⟨hstep, hkeeps⟩ := serviceLoop_run_eq hs
  rw [hloop] at hstep
  have hidle : s'.steps k = .idle ↔ s.inStep k = true ∨ s.steps k = .idle := by
    rw [(hkeeps.steps k).idle_iff, (hsteps k).2]
    split <;> simp_all
  have halive : (s'.steps k).alive = (s.steps k).alive := (hkeeps.steps k).alive_eq.trans (hsteps k).1
  have hmarks (j) (hne : j ≠ k) : (s.steps j).Marks (s'.steps j) := by
    have hmark := hkeeps.steps j
    rwa [(hsteps j).2, if_neg fun hj => hne hj.1] at hmark
  have hsame (c index) (hc : s.index? c = some index) : s'.index? c = some index := by
    rw [hkeeps.index?_eq, hindex, hc]
  cases loop_moves hstep with
  | @asked _ act des hask honce hdist =>
    cases hask
    have hdist' := (taskDistributor_step h.dist honce hdist).1
    have hpool' := poolOk_step h.dist h.pool honce hdist
    have hwaiting := waiting_step h.dist honce hdist
    have hcalls (c i) (hcall : s'.loop.m_exec.calls c = some (i, .processEvents)) :
        s.loop.m_exec.calls c = some (i, .processEvents) := by
      rcases calls_step h.dist h.pool hdist hcall with hold | hbegins
      · exact hold
      · cases hbegins
    have hframes := taskDistributor_frames hdist
    generalize hf : s'.loop.m_exec.frames = f at hframes
    cases hframes with
    | inplace ha => cases ha
    | nothing ha | refused _ ha | accepted ha => exact (ha k rfl).elim
    | @returned k' ha =>
      cases ha
      have hmoves : StepMoves s s' k := ⟨hkeeps.starts.trans hstarts, hsame, hmarks,
        fun j hne => by rw [hf, Function.update_of_ne hne]⟩
      refine ⟨fun hnil hin => ?_, fun _ => ⟨h.moves hmoves hdist' hpool' hcalls ?_ ?_,
        hmoves.chains_eq (b := 0) (fun i => ?_) ?_⟩⟩
      · obtain ⟨outer, heq⟩ := inStep_eq_true.mp hin
        rw [hf, Function.update_self, hnil] at heq
        cases heq
      · rw [hf, Function.update_self, h.returned k]
        simp only [hidle]
      · exact fun hk => h.threads k fun hi => hk (hidle.mpr (.inr hi))
      · have heq := hwaiting (queueIndex n.toNat i)
        simp only [accepted, executed, List.append_nil, List.nil_append] at heq
        rw [heq, ite_self, Nat.zero_add]
      · rw [halive, Nat.zero_add]
    | @executed k' t ha hnil =>
      cases ha
      have hmoves : StepMoves s s' k := ⟨hkeeps.starts.trans hstarts, hsame, hmarks,
        fun j hne => by rw [hf, Function.update_of_ne hne]⟩
      have hrest : s.steps k = .idle := by
        have hcount := h.frames k
        rw [hnil] at hcount
        by_contra hne
        rw [if_neg hne] at hcount
        cases hcount
      have hfree : s'.steps k = .idle := hidle.mpr (.inr hrest)
      have hin : s'.inStep k = true ↔ t = .processEvents := by
        rw [inStep_eq_true, hf, Function.update_self]
        simp
      have hbegun (i : Fin n.toNat) : (s.loop.m_exec.waiting (queueIndex n.toNat i)).count .processEvents =
          (if i.val = k then (if t = .processEvents then 1 else 0) else 0) +
            (s'.loop.m_exec.waiting (queueIndex n.toNat i)).count .processEvents := by
        have heq := congrArg (List.count .processEvents) (hwaiting (queueIndex n.toNat i))
        simp only [accepted, executed, List.append_nil, List.count_append, queueIndex_val i.isLt] at heq
        rw [heq, count_begun]
      refine ⟨fun _ hstep hk iter => ?_, fun hno => ?_⟩
      · obtain rfl := hin.mp hstep
        have hmoves := hmoves.trans (moves_turn (by simp [hfree]) (.walk iter))
        refine ⟨h.moves hmoves hdist' hpool' hcalls ?_ fun _ => hk, hmoves.chains_eq hbegun ?_⟩
        · change (s'.loop.m_exec.frames k).count _ = _
          rw [hf, Function.update_self, steps_turn, if_pos rfl]
          rfl
        · rw [steps_turn, if_pos rfl, hrest]
          rfl
      · have ht : t ≠ .processEvents := fun ht => hno ⟨hnil, hin.mpr ht⟩
        refine ⟨h.moves hmoves hdist' hpool' hcalls ?_ (absurd hfree), hmoves.chains_eq hbegun ?_⟩
        · rw [hf, Function.update_self, if_pos hfree, List.count_singleton, if_neg (by simpa using ht)]
        · rw [halive, if_neg ht, Nat.zero_add]

theorem startsOf_append (tr tr' : List (ServiceEv n)) : startsOf (tr ++ tr') = startsOf tr + startsOf tr' :=
  List.countP_append

theorem startsOf_loop (es : List (LoopEv n)) : startsOf (es.map ServiceEv.loop) = 0 := by
  rw [startsOf, List.countP_map]
  exact List.countP_eq_zero.mpr nofun

theorem StepsOk.start (h : StepsOk s) (hfree : s.free c = true) (hvalid : s.loop.valid = true) :
    StepsOk { s with starts := (c, 0) :: s.starts } ∧
      ∀ i, ServiceLoop.chains { s with starts := (c, 0) :: s.starts } i = s.chains i + 1 := by
  have hindex : s.index? c = none := Option.isNone_iff_eq_none.mp (Bool.and_eq_true_iff.mp hfree).1
  have hpos : 0 < n.toNat := by
    have hne := (Bool.and_eq_true_iff.mp hvalid).2
    exact Nat.pos_of_ne_zero (by simpa using hne)
  refine ⟨⟨h.dist, h.pool, h.frames, h.threads, ?_, ?_⟩, fun i => ?_⟩
  · rintro start (hstart | hstart)
    · exact hpos
    · exact h.starts start ‹_›
  · intro c' i hcall
    obtain ⟨index, hindex', hi⟩ := h.calls c' i hcall
    have hne : c' ≠ c := by
      rintro rfl
      rw [hindex] at hindex'
      cases hindex'
    refine ⟨index, ?_, hi⟩
    rw [index?_eq_some] at hindex' ⊢
    simpa only [List.lookup_cons, beq_false_of_ne hne] using hindex'
  · unfold ServiceLoop.chains
    dsimp only
    rw [List.countP_cons_of_pos (by simp)]
    omega

theorem StepsOk.exec_step (h : StepsOk s) (hs : (serviceLoop n).step s (.exec a) = some (s', es)) :
    StepsOk s' ∧ (∀ i, s'.chains i = s.chains i) ∧ startsOf es = 0 := by
  obtain ⟨hallow, hs⟩ := Option.ite_none_right_eq_some.mp hs
  cases a with
  | worker k =>
    obtain ⟨⟨s₁, les⟩, hrun, hs⟩ := Option.bind_eq_some_iff.mp hs
    obtain ⟨hbegins, hother⟩ := h.worker hallow hrun
    dsimp only at hs
    split at hs
    · rename_i hin
      obtain ⟨hnil, hin⟩ := Bool.and_eq_true_iff.mp hin
      split at hs
      · rename_i hk
        cases hs
        obtain ⟨hok, hchains⟩ :=
          hbegins (List.isEmpty_iff.mp hnil) hin hk (OrderedMap.first (s₁.loop.m_pdata ⟨k, hk⟩))
        exact ⟨hok, hchains, by rw [startsOf_append, startsOf_loop]; rfl⟩
      · cases hs
    · rename_i hout
      cases hs
      obtain ⟨hok, hchains⟩ := hother fun hboth => hout (by simpa using hboth)
      exact ⟨hok, hchains, startsOf_loop les⟩
  | pushBack c =>
    obtain ⟨⟨s₁, les⟩, hrun, hs⟩ := Option.bind_eq_some_iff.mp hs
    obtain ⟨i, t, hcall, hconfig, hstep⟩ := h.pushBack hrun
    rw [hcall] at hs
    cases t with
    | processEvents =>
      cases hs
      obtain ⟨hok, hchains⟩ := hstep rfl
      exact ⟨hok, hchains, startsOf_loop les⟩
    | config c' op =>
      cases hs
      obtain ⟨hok, hchains⟩ := hconfig nofun
      exact ⟨hok, hchains, startsOf_loop les⟩
  | construct | call | startNextStep | shutdown | control =>
    obtain ⟨⟨s₁, les⟩, hrun, hs⟩ := Option.bind_eq_some_iff.mp hs
    cases hs
    obtain ⟨hok, hchains⟩ := h.exec hallow nofun nofun hrun
    exact ⟨hok, hchains, startsOf_loop les⟩

theorem StepsOk.step (h : StepsOk s) (hs : (serviceLoop n).step s a = some (s', es)) :
    StepsOk s' ∧ ∀ i, s'.chains i = s.chains i + startsOf es := by
  have hquiet {s₁ : ServiceLoop n} {es : List (ServiceEv n)} (h₁ : StepsOk s₁ ∧ ∀ i, s₁.chains i = s.chains i)
      (hes : startsOf es = 0) : StepsOk s₁ ∧ ∀ i, s₁.chains i = s.chains i + startsOf es := by
    rw [hes]
    exact h₁
  cases a with
  | start c =>
    obtain ⟨hguard, hs⟩ := Option.ite_none_right_eq_some.mp hs
    split at hs
    · rename_i hvalid
      cases hs
      exact h.start (Bool.and_eq_true_iff.mp hguard).2 hvalid
    · cases hs
      exact ⟨h, fun _ => rfl⟩
  | startNextStep c =>
    obtain ⟨index, hindex, hs⟩ := Option.bind_eq_some_iff.mp hs
    obtain ⟨⟨s₁, les⟩, hrun, hs⟩ := Option.bind_eq_some_iff.mp hs
    obtain ⟨rfl, hok⟩ := h.startNextStep hindex hrun
    cases hs
    exact hok
  | visit i =>
    obtain ⟨-, hs⟩ := Option.ite_none_right_eq_some.mp hs
    split at hs
    · rename_i hpc
      cases hs
      exact hquiet (h.turn (by simp [hpc]) (by simp [hpc]) nofun (by rw [hpc]; rfl)) rfl
    · rename_i key hpc
      obtain ⟨service, -, hs⟩ := Option.bind_eq_some_iff.mp hs
      cases hs
      exact hquiet (h.turn (by simp [hpc]) (by simp [hpc]) nofun (by rw [hpc]; rfl)) rfl
    · cases hs
  | advance i =>
    obtain ⟨-, hs⟩ := Option.ite_none_right_eq_some.mp hs
    split at hs
    · rename_i key hpc
      cases hs
      exact hquiet (h.turn (by simp [hpc]) (by simp [hpc]) nofun (by rw [hpc]; rfl)) rfl
    · cases hs
  | exec a =>
    obtain ⟨hok, hchains, hnone⟩ := h.exec_step hs
    exact hquiet ⟨hok, hchains⟩ hnone

theorem stepsOk_init (n : BitVec 32) : StepsOk (serviceLoop n).init where
  dist := (loopOk_init n).dist
  pool := (loopOk_init n).pool
  frames _ := rfl
  threads _ h := (h rfl).elim
  starts := nofun
  calls := nofun

theorem stepsOk_run (h : (serviceLoop n).Run tr s) : StepsOk s ∧ ∀ i, s.chains i = startsOf tr := by
  refine h.invariant (I := fun tr s => StepsOk s ∧ ∀ i, s.chains i = startsOf tr)
    ⟨stepsOk_init n, fun _ => rfl⟩ ?_
  rintro tr s a s' es - ⟨hok, ih⟩ - hs
  obtain ⟨hok', hchains⟩ := hok.step hs
  refine ⟨hok', fun i => ?_⟩
  rw [hchains, ih, startsOf_append]

end

/-- In every run each thread has as many steps, queued, yet to be added or running, as there were
calls of `start`, and it never runs a second one inside the first. -/
theorem eventLoop_keeps_steps (n : BitVec 32) {tr : List (ServiceEv n)} {s : ServiceLoop n}
    (h : (serviceLoop n).Run tr s) (i : Fin n.toNat) :
    s.chains i = startsOf tr ∧ (s.loop.m_exec.frames i).count .processEvents ≤ 1 := by
  obtain ⟨hok, hchains⟩ := stepsOk_run h
  refine ⟨hchains i, ?_⟩
  rw [hok.frames]
  split <;> simp

theorem eventLoop_keeps_steps_successor : ∃ (tr : List (ServiceEv 1)) (s : ServiceLoop 1),
    (serviceLoop 1).Run tr s ∧ tr.count (.began ⟨0, by decide⟩) = 2 ∧ .processed ⟨0, by decide⟩ 5 ⟨1, 5⟩ ∈ tr ∧
    s.chains ⟨0, by decide⟩ = startsOf tr ∧ (s.loop.m_exec.frames 0).count .processEvents ≤ 1 := by
  have hr : ((serviceLoop 1).replay (serviceLoop 1).init
      ([.exec .construct, .exec .control, .exec .control,
        .exec (.call (.external 0) (some (.addService ⟨1, 5⟩))), .exec (.pushBack (.external 0)),
        .start (.external 0), .startNextStep (.external 0), .exec (.pushBack (.external 0))] ++
        List.replicate 8 (.exec (.worker 0)) ++ [.visit ⟨0, by decide⟩, .advance ⟨0, by decide⟩,
        .visit ⟨0, by decide⟩, .startNextStep (.worker 0), .exec (.pushBack (.worker 0))] ++
        List.replicate 8 (.exec (.worker 0)))).isSome := rfl
  have hrun := Machine.steps_of_replay (Option.some_get hr).symm
  exact ⟨_, _, hrun, by decide, by decide, eventLoop_keeps_steps 1 hrun ⟨0, by decide⟩⟩

end Andren.Network
