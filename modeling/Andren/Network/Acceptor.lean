import Andren.Machine.Channel
import Andren.Network.Polling
import Andren.Network.SockStream

/-!
# Accepting connections

An `Acceptor` owns a listening socket. Its callback on the poller accepts one connection for
each event, whatever waits, and passes it to `onAccept` as a stream. The tasks of `start` and
`asyncStop` install and cancel the callback.

The connections that wait at a listening socket are a queue: in every run they leave it in the
order they came, to `onAccept` unless something on the way fails
(`acceptor_takes_in_order`), and one with each tick of the poller (`acceptor_one_a_tick`).
-/

namespace Andren.Network

open Machines

inductive AcceptHandler
  | acceptor
  | other
  deriving DecidableEq

inductive AcceptorTask
  | start (fd : Int)
  | asyncStop (onStop : Bool)

structure Acceptor where
  poller : RePoller AcceptHandler
  alive : Bool
  m_onAccept : Bool
  m_sock : Int
  tasks : List AcceptorTask
  /-- The connections that wait at each listening socket, the oldest first. -/
  pending : Int → List Nat
  /-- The number of connections so far. -/
  arrived : Nat
  /-- An exception or an assertion has ended the program. -/
  ended : Bool

/-- What `accept` returns, besides the connection. -/
inductive AcceptResult
  | client (cli : Int)
  | failed

inductive AcceptAct
  | arrive (fd : Int)
  | setOnAccept (onAccept : Bool)
  /-- `attached` tells whether the poller and its event loop are there. -/
  | start (listenSock : Int) (attached : Bool)
  | asyncStop (onStop attached : Bool)
  /-- A task runs; `append` returns `appended`. -/
  | task (i : Nat) (appended : Bool)
  | call (c : PollerCall AcceptHandler)
  | drop
  /-- The poller calls what it holds for `fd`. -/
  | ready (fd : Int) (events : Events) (result : AcceptResult)

inductive AcceptEv
  | onAcceptSet
  | arrived (fd : Int) (client : Nat)
  /-- `onAccept` gets a stream on the descriptor `cli`. -/
  | accepted (fd : Int) (client : Nat) (cli : Int)
  /-- `onAccept` gets no stream. -/
  | onAcceptNull
  /-- A connection accepted as `cli` is not passed on. -/
  | lost (fd : Int) (client : Nat) (cli : Int)
  /-- The listening socket is closed with the connection waiting. -/
  | reset (fd : Int) (client : Nat)
  | onStop
  | terminated
  deriving DecidableEq

def PollerCall.installsAcceptor : PollerCall AcceptHandler → Bool
  | .setReadyCallback _ (some .acceptor) => true
  | _ => false

namespace Acceptor

def take (s : Acceptor) (fd : Int) (rest : List Nat) : Acceptor :=
  { s with pending := Function.update s.pending fd rest }

def closeSock (s : Acceptor) : Acceptor × List AcceptEv :=
  if 0 < s.m_sock then (s.take s.m_sock [], (s.pending s.m_sock).map (.reset s.m_sock)) else (s, [])

def terminate (s : Acceptor) (es : List AcceptEv) : Acceptor × List AcceptEv :=
  ({ s with ended := true }, es ++ [.terminated])

def runTask (ndebug : Bool) (s : Acceptor) (appended : Bool) : AcceptorTask → Acceptor × List AcceptEv
  | .start fd =>
    let s := { s with poller := (s.poller.setReadyCallback fd (some .acceptor)).1 }
    if appended ∨ ndebug then (s, []) else s.terminate []
  | .asyncStop onStop =>
    let s := { s with poller := if 0 < s.m_sock then s.poller.cancle s.m_sock else s.poller }
    if onStop then (s, [.onStop]) else s.terminate []

/-- The callback that `start` installs. A call of an empty `onAccept` throws. -/
def callback (s : Acceptor) (events : Events) (result : AcceptResult) : Option (Acceptor × List AcceptEv) :=
  if ¬s.alive then some (s, [])
  else if events &&& EPOLLIN = 0 then
    some (if s.m_onAccept then (s, [.onAcceptNull]) else s.terminate [])
  else match result, s.pending s.m_sock with
    | .failed, _ => some (s, [])
    | .client _, [] => none
    | .client cli, client :: rest =>
      let s := s.take s.m_sock rest
      if cli < 0 then none
      else if cli = 0 then some (s, [.lost s.m_sock client cli])
      else if s.m_onAccept then some (s, [.accepted s.m_sock client cli])
      else some (s.terminate [.lost s.m_sock client cli])

end Acceptor

def acceptor (ndebug : Bool) : Machine Acceptor AcceptAct AcceptEv where
  init := ⟨⟨∅, ∅, false⟩, true, false, -1, [], fun _ => [], 0, false⟩
  step s a := if s.ended then none else match a with
    | .arrive fd =>
      if 0 < fd then
        some ({ s.take fd (s.pending fd ++ [s.arrived]) with arrived := s.arrived + 1 }, [.arrived fd s.arrived])
      else none
    | .setOnAccept onAccept =>
      if onAccept then some ({ s with m_onAccept := true }, [.onAcceptSet]) else some (s, [])
    | .start listenSock attached =>
      if ¬s.alive then none
      else
        let (s, es) := s.closeSock
        some ({ s with
          m_sock := listenSock, tasks := s.tasks ++ if attached then [.start listenSock] else [] }, es)
    | .asyncStop onStop attached =>
      if ¬s.alive then none
      else some ({ s with tasks := s.tasks ++ if attached then [.asyncStop onStop] else [] }, [])
    | .task i appended => do
      let t ← s.tasks[i]?
      pure (Acceptor.runTask ndebug { s with tasks := s.tasks.eraseIdx i } appended t)
    | .call c => if c.installsAcceptor then none else some ({ s with poller := (s.poller.perform c).1 }, [])
    | .drop =>
      -- the tasks keep the acceptor
      if ¬s.alive ∨ ¬s.tasks.isEmpty then none
      else
        let (s, es) := s.closeSock
        some ({ s with alive := false, m_sock := -1 }, es)
    | .ready fd events result => match s.poller.m_callbacks[fd]? with
      | some .acceptor => s.callback events result
      | _ => none

-- ---------------------------------------------------------------------------
-- The queues of connections
-- ---------------------------------------------------------------------------

def AcceptEv.queue : AcceptEv → List (ChanEv Int Nat)
  | .arrived fd client => [.put fd client]
  | .accepted fd client _ | .lost fd client _ | .reset fd client => [.got fd client]
  | _ => []

def arrivals (fd : Int) (tr : List AcceptEv) : List Nat := puts fd (tr.flatMap AcceptEv.queue)

def departures (fd : Int) (tr : List AcceptEv) : List Nat := gots fd (tr.flatMap AcceptEv.queue)

/-- A connection is passed on with a descriptor, and lost only as descriptor 0, or with the
program when `onAccept` was never set. -/
def AcceptEv.Rightly (tr : List AcceptEv) : AcceptEv → Prop
  | .accepted _ _ cli => 0 < cli ∧ .onAcceptSet ∈ tr
  | .lost _ _ cli => cli = 0 ∨ .terminated ∈ tr ∧ .onAcceptSet ∉ tr
  | _ => True

structure Tells (s s' : Acceptor) (es : List AcceptEv) : Prop where
  set : s'.m_onAccept = true ↔ s.m_onAccept = true ∨ .onAcceptSet ∈ es
  ended : .terminated ∈ es → s'.ended = true
  accepted : ∀ fd client cli, .accepted fd client cli ∈ es → 0 < cli ∧ s.m_onAccept = true
  lost : ∀ fd client cli, .lost fd client cli ∈ es →
    cli = 0 ∨ .terminated ∈ es ∧ .onAcceptSet ∉ es ∧ s.m_onAccept = false

inductive Queues (s : Acceptor) : Acceptor → List AcceptEv → Prop
  | same : s'.pending = s.pending → s'.arrived = s.arrived → es.flatMap AcceptEv.queue = [] → Queues s s' es
  | arrive : s'.pending = Function.update s.pending fd (s.pending fd ++ [s.arrived]) →
      s'.arrived = s.arrived + 1 → Queues s s' [.arrived fd s.arrived]
  | take : s.pending fd = client :: rest → s'.pending = Function.update s.pending fd rest →
      s'.arrived = s.arrived → es.flatMap AcceptEv.queue = [.got fd client] → Queues s s' es
  | reset : s'.pending = Function.update s.pending fd [] → s'.arrived = s.arrived →
      Queues s s' ((s.pending fd).map (.reset fd))

section

variable {s s' : Acceptor} {es : List AcceptEv} {ndebug : Bool}

theorem closeSock_queues (hpending : s'.pending = s.closeSock.1.pending)
    (harrived : s'.arrived = s.closeSock.1.arrived) (hset : s'.m_onAccept = s.m_onAccept) :
    Queues s s' s.closeSock.2 ∧ Tells s s' s.closeSock.2 := by
  by_cases h : 0 < s.m_sock
  · simp only [Acceptor.closeSock, if_pos h] at hpending harrived ⊢
    exact ⟨.reset hpending harrived, by simp [hset], by simp, by simp, by simp⟩
  · simp only [Acceptor.closeSock, if_neg h] at hpending harrived ⊢
    exact ⟨.same hpending harrived rfl, by simp [hset], nofun, nofun, nofun⟩

theorem closeSock_onAccept (s : Acceptor) : s.closeSock.1.m_onAccept = s.m_onAccept := by
  unfold Acceptor.closeSock
  split <;> rfl

theorem tells_nothing (hset : s'.m_onAccept = s.m_onAccept) : Tells s s' [] :=
  ⟨by simp [hset], nofun, nofun, nofun⟩

theorem callback_queues (hs : s.callback events result = some (s', es)) : Queues s s' es ∧ Tells s s' es := by
  unfold Acceptor.callback at hs
  split at hs
  · cases hs
    exact ⟨.same rfl rfl rfl, tells_nothing rfl⟩
  · split at hs
    · split at hs
      · cases hs
        exact ⟨.same rfl rfl rfl, by simp, by simp, by simp, by simp⟩
      · cases hs
        exact ⟨.same rfl rfl rfl, by simp, fun _ => rfl, by simp, by simp⟩
    · split at hs
      · cases hs
        exact ⟨.same rfl rfl rfl, tells_nothing rfl⟩
      · cases hs
      · rename_i cli client rest hpending
        obtain ⟨hneg, hs⟩ := Option.ite_none_left_eq_some.mp hs
        split at hs
        · rename_i hzero
          cases hs
          exact ⟨.take hpending rfl rfl rfl, by simp [Acceptor.take], by simp, by simp, by simp [hzero]⟩
        · rename_i hzero
          split at hs
          · rename_i hset
            cases hs
            have hpos : 0 < cli := by omega
            have hset : s.m_onAccept = true := hset
            refine ⟨.take hpending rfl rfl rfl, by simp [Acceptor.take], by simp, fun _ _ _ he => ?_, by simp⟩
            cases List.mem_singleton.mp he
            exact ⟨hpos, hset⟩
          · rename_i hset
            cases hs
            have hset : s.m_onAccept = false := Bool.eq_false_iff.mpr hset
            exact ⟨.take hpending rfl rfl rfl, by simp [Acceptor.take], fun _ => rfl, by simp,
              by simp [hset]⟩

theorem step_queues (hs : (acceptor ndebug).step s a = some (s', es)) :
    s.ended = false ∧ Queues s s' es ∧ Tells s s' es := by
  obtain ⟨hended, hs⟩ := Option.ite_none_left_eq_some.mp hs
  refine ⟨Bool.eq_false_iff.mpr hended, ?_⟩
  cases a with
  | arrive fd =>
    obtain ⟨-, hs⟩ := Option.ite_none_right_eq_some.mp hs
    cases hs
    exact ⟨.arrive rfl rfl, by simp [Acceptor.take], by simp, by simp, by simp⟩
  | setOnAccept onAccept =>
    dsimp only at hs
    split at hs
    · cases hs
      exact ⟨.same rfl rfl rfl, by simp, by simp, by simp, by simp⟩
    · cases hs
      exact ⟨.same rfl rfl rfl, tells_nothing rfl⟩
  | start listenSock attached =>
    obtain ⟨-, hs⟩ := Option.ite_none_left_eq_some.mp hs
    cases hs
    exact closeSock_queues rfl rfl (closeSock_onAccept s)
  | asyncStop onStop attached =>
    obtain ⟨-, hs⟩ := Option.ite_none_left_eq_some.mp hs
    cases hs
    exact ⟨.same rfl rfl rfl, tells_nothing rfl⟩
  | task i appended =>
    obtain ⟨t, -, hs⟩ := Option.bind_eq_some_iff.mp hs
    cases t with
    | start fd =>
      by_cases hgoes : appended = true ∨ ndebug = true
      · simp only [Acceptor.runTask, if_pos hgoes] at hs
        cases hs
        exact ⟨.same rfl rfl rfl, tells_nothing rfl⟩
      · simp only [Acceptor.runTask, if_neg hgoes] at hs
        cases hs
        exact ⟨.same rfl rfl rfl, by simp, fun _ => rfl, by simp, by simp⟩
    | asyncStop onStop =>
      cases onStop
      · cases hs
        exact ⟨.same rfl rfl rfl, by simp, fun _ => rfl, by simp, by simp⟩
      · cases hs
        exact ⟨.same rfl rfl rfl, by simp, by simp, by simp, by simp⟩
  | call c =>
    obtain ⟨-, hs⟩ := Option.ite_none_left_eq_some.mp hs
    cases hs
    exact ⟨.same rfl rfl rfl, tells_nothing rfl⟩
  | drop =>
    obtain ⟨-, hs⟩ := Option.ite_none_left_eq_some.mp hs
    cases hs
    exact closeSock_queues rfl rfl (closeSock_onAccept s)
  | ready fd events result =>
    simp only at hs
    split at hs
    · exact callback_queues hs
    · cases hs

theorem Queues.steps (h : Queues s s' es) :
    (channels Int Nat).Steps Machine.anyStep s.pending (es.flatMap AcceptEv.queue) s'.pending := by
  cases h with
  | same hpending _ hes =>
    rw [hes, hpending]
    exact .refl
  | arrive hpending =>
    rw [hpending]
    exact channels_put s.pending _ s.arrived
  | take hhead hpending _ hes =>
    rename_i fd client rest _
    have hsplit : s.pending fd = [client] ++ rest := hhead
    rw [hes, hpending]
    exact channels_gets hsplit
  | reset hpending =>
    rename_i fd _
    have hgots : ((s.pending fd).map (AcceptEv.reset fd)).flatMap AcceptEv.queue = (s.pending fd).map (.got fd) := by
      rw [List.flatMap_map, List.map_eq_flatMap]
      rfl
    rw [hgots, hpending]
    exact channels_gets (List.append_nil _).symm

theorem Queues.arrivals (h : Queues s s' es) (fd : Int) : s.arrived ≤ s'.arrived ∧
    (arrivals fd es = [] ∨ arrivals fd es = [s.arrived] ∧ s'.arrived = s.arrived + 1) := by
  cases h with
  | same _ harrived hes => exact ⟨harrived.ge, .inl (by rw [Network.arrivals, hes]; rfl)⟩
  | arrive _ harrived =>
    rename_i fd' _
    refine ⟨by omega, ?_⟩
    rcases eq_or_ne fd' fd with rfl | hne
    · exact .inr ⟨by simp [Network.arrivals, AcceptEv.queue, puts], harrived⟩
    · exact .inl (by simp [Network.arrivals, AcceptEv.queue, puts, hne])
  | take _ _ harrived hes => exact ⟨harrived.ge, .inl (by rw [Network.arrivals, hes]; rfl)⟩
  | reset _ harrived =>
    refine ⟨harrived.ge, .inl ?_⟩
    rw [Network.arrivals, List.flatMap_map]
    induction s.pending _ with
    | nil => rfl
    | cons c cs ih => exact ih

end

structure AcceptsInOrder (tr : List AcceptEv) (s : Acceptor) : Prop where
  fifo : (channels Int Nat).Run (tr.flatMap AcceptEv.queue) s.pending
  order : ∀ fd, (arrivals fd tr).Pairwise (· < ·)
  fresh : ∀ fd, ∀ c ∈ arrivals fd tr, c < s.arrived
  set : s.m_onAccept = true ↔ .onAcceptSet ∈ tr
  ended : .terminated ∈ tr → s.ended = true
  rightly : ∀ e ∈ tr, e.Rightly tr

/-- Nothing is shown after the end of the program. -/
theorem Tells.rightly (h : Tells s s' es) (hset : s.m_onAccept = true ↔ .onAcceptSet ∈ tr)
    (hgoes : .terminated ∉ tr) (hrightly : ∀ e ∈ tr, e.Rightly tr) : ∀ e ∈ tr ++ es, e.Rightly (tr ++ es) := by
  intro e he
  rcases List.mem_append.mp he with he | he
  · have hold := hrightly e he
    cases e with
    | accepted => exact ⟨hold.1, List.mem_append_left _ hold.2⟩
    | lost => exact .inl (hold.resolve_right fun hterm => hgoes hterm.1)
    | _ => trivial
  · cases e with
    | accepted fd client cli =>
      obtain ⟨hpos, honAccept⟩ := h.accepted fd client cli he
      exact ⟨hpos, List.mem_append_left _ (hset.mp honAccept)⟩
    | lost fd client cli =>
      refine (h.lost fd client cli he).imp_right fun ⟨hterm, hnone, hnever⟩ => ⟨List.mem_append_right _ hterm, ?_⟩
      refine List.not_mem_append (fun hmem => ?_) hnone
      exact Bool.false_ne_true (hnever.symm.trans (hset.mpr hmem))
    | _ => trivial

theorem acceptsInOrder (h : (acceptor ndebug).Run tr s) : AcceptsInOrder tr s := by
  refine h.invariant ⟨.refl, fun _ => .nil, nofun, by simp [acceptor], nofun, nofun⟩ ?_
  rintro tr s a s' es - ⟨hfifo, horder, hfresh, hset, hended, hrightly⟩ - hs
  obtain ⟨hgoes, hq, htells⟩ := step_queues hs
  have happend (fd : Int) : arrivals fd (tr ++ es) = arrivals fd tr ++ arrivals fd es := by
    rw [arrivals, List.flatMap_append, puts_append]
    rfl
  have hnot : .terminated ∉ tr := fun hterm => Bool.false_ne_true (hgoes.symm.trans (hended hterm))
  refine ⟨?_, fun fd => ?_, fun fd c hc => ?_, ?_, fun hterm => ?_, htells.rightly hset hnot hrightly⟩
  · rw [List.flatMap_append]
    exact hfifo.trans hq.steps
  · rw [happend]
    rcases (hq.arrivals fd).2 with hnone | ⟨hone, -⟩
    · rw [hnone, List.append_nil]
      exact horder fd
    · rw [hone]
      refine List.pairwise_append.mpr ⟨horder fd, List.pairwise_singleton .., fun c hc d hd => ?_⟩
      exact List.mem_singleton.mp hd ▸ hfresh fd c hc
  · rw [happend] at hc
    rcases List.mem_append.mp hc with hc | hc
    · exact (hfresh fd c hc).trans_le (hq.arrivals fd).1
    · rcases (hq.arrivals fd).2 with hnone | ⟨hone, harrived⟩
      · rw [hnone] at hc
        cases hc
      · rw [hone] at hc
        rw [List.mem_singleton.mp hc, harrived]
        exact Nat.lt_succ_self _
  · rw [htells.set, hset, List.mem_append]
  · exact htells.ended ((List.mem_append.mp hterm).resolve_left hnot)

/-- At every listening socket the connections leave the queue in the order they came, each of them
once. They leave it to `onAccept`, with a valid descriptor, unless the listening socket is closed,
`accept` gives descriptor 0, or `onAccept` was never set and the program ends. -/
theorem acceptor_takes_in_order (h : (acceptor ndebug).Run tr s) (fd : Int) :
    arrivals fd tr = departures fd tr ++ s.pending fd ∧ (arrivals fd tr).Pairwise (· < ·) ∧
      ∀ e ∈ tr, e.Rightly tr :=
  have hall := acceptsInOrder h
  ⟨channels_fifo hall.fifo fd, hall.order fd, hall.rightly⟩

def acceptedOne : Option (Acceptor × List AcceptEv) :=
  (acceptor false).replay (acceptor false).init
    [.setOnAccept true, .start 5 true, .task 0 true, .arrive 5, .arrive 5, .ready 5 1 (.client 8), .start 6 true]

theorem acceptor_takes_in_order_one : ∃ s tr, acceptedOne = some (s, tr) ∧
    tr = [.onAcceptSet, .arrived 5 0, .arrived 5 1, .accepted 5 0 8, .reset 5 1] ∧
      arrivals 5 tr = departures 5 tr ++ s.pending 5 ∧ (arrivals 5 tr).Pairwise (· < ·) ∧
        ∀ e ∈ tr, e.Rightly tr := by
  obtain ⟨⟨s, tr⟩, hone⟩ := Option.isSome_iff_exists.mp (show acceptedOne.isSome = true by decide)
  have htr : acceptedOne.map Prod.snd =
    some [.onAcceptSet, .arrived 5 0, .arrived 5 1, .accepted 5 0 8, .reset 5 1] := by decide
  rw [hone] at htr
  exact ⟨s, tr, hone, Option.some.inj htr, acceptor_takes_in_order (Machine.steps_of_replay hone) 5⟩

-- ---------------------------------------------------------------------------
-- Connections and ticks
-- ---------------------------------------------------------------------------

structure Acceptor.Serves (s : Acceptor) (fd : Int) : Prop where
  ended : s.ended = false
  alive : s.alive = true
  m_onAccept : s.m_onAccept = true
  m_sock : s.m_sock = fd
  registered : s.poller.m_callbacks[fd]? = some .acceptor

/-- A tick of the poller, and what the callback of `fd` does in it. -/
def Acceptor.tick (ndebug : Bool) (B : Behaviour AcceptHandler) (fuel : Nat) (timeoutMsec fd : Int)
    (wait : Int → EpollWait) (result : AcceptResult) (s : Acceptor) : Option (Acceptor × List AcceptEv) :=
  match s.poller.work B fuel timeoutMsec wait with
  | .error _ => none
  | .ok d => (acceptor ndebug).replay { s with poller := d.poller }
      ((d.calls.filter fun call => call.1 = fd).map fun call => .ready fd call.2 result)

def Acceptor.ticks (ndebug : Bool) (B : Behaviour AcceptHandler) (fuel : Nat) (timeoutMsec fd : Int) :
    List ((Int → EpollWait) × Int) → Acceptor → Option (Acceptor × List AcceptEv)
  | [], s => some (s, [])
  | (wait, cli) :: rest, s => do
    let (s, es) ← s.tick ndebug B fuel timeoutMsec fd wait (.client cli)
    let (s, es') ← ticks ndebug B fuel timeoutMsec fd rest s
    pure (s, es ++ es')

/-- epoll reports that `fd` can be read, as it does while a connection waits. -/
def Readable (fd : Int) (wait : Int → EpollWait) : Prop :=
  ∀ msec, ∃ evs m, (wait msec).events = some evs ∧ (fd, m) ∈ evs ∧ m &&& EPOLLIN ≠ 0

theorem orAll_covers {es : List Events} (he : e ∈ es) (h : orAll es = some m) : Covers m e := by
  cases es with
  | nil => cases he
  | cons e₀ es =>
    cases h
    induction es generalizing e₀ with
    | nil => exact List.mem_singleton.mp he ▸ .refl _
    | cons e₁ es ih =>
      rw [List.foldl_cons]
      rcases List.mem_cons.mp he with rfl | he
      · refine (covers_foldl es (e ||| e₁)).trans ?_
        unfold Covers
        ext i
        simp only [BitVec.getElem_and, BitVec.getElem_or]
        cases e[i] <;> simp
      · rcases List.mem_cons.mp he with rfl | he
        · refine (covers_foldl es (e₀ ||| e)).trans ?_
          unfold Covers
          ext i
          simp only [BitVec.getElem_and, BitVec.getElem_or]
          cases e[i] <;> simp
        · exact ih (e₀ ||| e₁) (.tail _ he)

theorem pendingMask_epollin (p : RePoller AcceptHandler) (hmem : (fd, m) ∈ evs) (hm : m &&& EPOLLIN ≠ 0) :
    ∃ e, p.pendingMask evs fd = some e ∧ e &&& EPOLLIN ≠ 0 := by
  have hlist : m ∈ p.m_customEvents[fd]?.toList ++ masks evs fd := List.mem_append_right _ (mem_masks.mpr hmem)
  obtain ⟨e, he⟩ : ∃ e, p.pendingMask evs fd = some e := by
    unfold RePoller.pendingMask
    cases hall : p.m_customEvents[fd]?.toList ++ masks evs fd with
    | nil =>
      rw [hall] at hlist
      cases hlist
    | cons e es => exact ⟨_, rfl⟩
  refine ⟨e, he, fun hzero => hm ?_⟩
  have hcovers : e &&& m = m := orAll_covers hlist he
  rw [← hcovers, BitVec.and_assoc, BitVec.and_comm m, ← BitVec.and_assoc, hzero]
  exact BitVec.zero_and

section

variable {B : Behaviour AcceptHandler} {s : Acceptor} {fd cli : Int} {fuel : Nat}

theorem ready_serves (ndebug : Bool) (hs : s.Serves fd) (he : e &&& EPOLLIN ≠ 0)
    (hpending : s.pending fd = client :: rest) (hcli : 0 < cli) : (acceptor ndebug).step s (.ready fd e (.client cli)) =
      some (s.take fd rest, [.accepted fd client cli]) := by
  obtain ⟨hended, halive, honAccept, rfl, hreg⟩ := hs
  have hneg : ¬cli < 0 := by omega
  have hne : cli ≠ 0 := by omega
  simp only [acceptor, hended, Bool.false_eq_true, if_false, hreg, Acceptor.callback, halive, not_true_eq_false, he,
    hpending, hneg, hne, honAccept, if_true, Acceptor.take]

theorem tick_serves (ndebug : Bool) (timeoutMsec : Int) (hB : B.Quiet) (hs : s.Serves fd)
    (hfuel : s.poller.m_callbacks.size ≤ fuel) (hwait : Readable fd wait)
    (hpending : s.pending fd = client :: rest) (hcli : 0 < cli) :
    ∃ s', s.tick ndebug B fuel timeoutMsec fd wait (.client cli) = some (s', [.accepted fd client cli]) ∧
      s'.Serves fd ∧ s'.pending fd = rest ∧ s'.poller.m_callbacks.size ≤ fuel := by
  obtain ⟨evs, m, hevs, hmem, hm⟩ := hwait (s.poller.usedTimeoutMsec timeoutMsec)
  obtain ⟨e, he, hin⟩ := pendingMask_epollin s.poller hmem hm
  have hcontains : s.poller.m_callbacks.contains fd = true := by
    rw [Std.TreeMap.contains_eq_isSome_getElem?, hs.registered]
    rfl
  have hcalls := filter_expected s.poller hcontains he
  have hcbs : (s.poller.dispatch B evs).poller.m_callbacks = s.poller.m_callbacks :=
    (invokeAll_quiet hB s.poller.begin (s.poller.due evs)).1
  have hserves : Acceptor.Serves { s with poller := (s.poller.dispatch B evs).poller } fd :=
    ⟨hs.ended, hs.alive, hs.m_onAccept, hs.m_sock, hcbs ▸ hs.registered⟩
  have hstep := ready_serves ndebug hserves hin hpending hcli
  refine ⟨Acceptor.take { s with poller := (s.poller.dispatch B evs).poller } fd rest, ?_,
    ⟨hserves.ended, hserves.alive, hserves.m_onAccept, hserves.m_sock, hserves.registered⟩,
    Function.update_self .., hcbs ▸ hfuel⟩
  simp only [Acceptor.tick, work_eq_dispatch hB s.poller hfuel hevs, dispatch_calls hB, hcalls, List.map_cons,
    List.map_nil, Machine.replay, hstep]
  rfl

/-- However many connections wait, each tick passes on one of them, and they go in turn. -/
theorem acceptor_one_a_tick (hB : B.Quiet) (hs : s.Serves fd) (hfuel : s.poller.m_callbacks.size ≤ fuel)
    (ts : List ((Int → EpollWait) × Int)) (hts : ∀ t ∈ ts, Readable fd t.1 ∧ 0 < t.2)
    (hlength : ts.length ≤ (s.pending fd).length) :
    ∃ s', s.ticks ndebug B fuel timeoutMsec fd ts =
        some (s', List.zipWith (fun client t => .accepted fd client t.2) (s.pending fd) ts) ∧
      s'.Serves fd ∧ s'.pending fd = (s.pending fd).drop ts.length := by
  induction ts generalizing s with
  | nil => exact ⟨s, by simp [Acceptor.ticks], hs, rfl⟩
  | cons t ts ih =>
    obtain ⟨wait, cli⟩ := t
    obtain ⟨hwait, hcli⟩ := hts (wait, cli) (.head _)
    cases hpending : s.pending fd with
    | nil => simp [hpending] at hlength
    | cons client rest =>
      obtain ⟨s₁, htick, hs₁, hrest, hfuel₁⟩ := tick_serves ndebug timeoutMsec hB hs hfuel hwait hpending hcli
      have hlength₁ : ts.length ≤ (s₁.pending fd).length := by
        rw [hpending] at hlength
        rw [hrest]
        exact Nat.le_of_succ_le_succ hlength
      obtain ⟨s₂, hticks, hs₂, hdrop⟩ := ih hs₁ hfuel₁ (fun t ht => hts t (.tail _ ht)) hlength₁
      rw [hrest] at hticks hdrop
      exact ⟨s₂, by simp [Acceptor.ticks, htick, hticks], hs₂, hdrop⟩

def waitingThree : Acceptor :=
  ⟨⟨(∅ : Std.TreeMap Int AcceptHandler).insert 5 .acceptor, ∅, false⟩, true, true, 5, [],
    Function.update (fun _ => []) 5 [3, 4, 7], 8, false⟩

theorem acceptor_one_a_tick_two : ∃ s',
    waitingThree.ticks false (fun _ _ _ => []) 1 10 5 [(fun _ => .ready [(5, 1)], 8), (fun _ => .ready [(5, 17)], 9)] =
        some (s', [.accepted 5 3 8, .accepted 5 4 9]) ∧
      s'.Serves 5 ∧ s'.pending 5 = [7] := by
  have hquiet : @Behaviour.Quiet AcceptHandler fun _ _ _ => [] := by
    intro log cb events c hc
    cases hc
  refine acceptor_one_a_tick hquiet (s := waitingThree) ⟨rfl, rfl, rfl, rfl, by decide⟩ (by decide) _ ?_ (by decide)
  intro t ht
  simp only [List.mem_cons, List.not_mem_nil, or_false] at ht
  rcases ht with rfl | rfl
  · exact ⟨fun _ => ⟨_, 1, rfl, List.mem_singleton.mpr rfl, by decide⟩, by decide⟩
  · exact ⟨fun _ => ⟨_, 17, rfl, List.mem_singleton.mpr rfl, by decide⟩, by decide⟩

end

end Andren.Network
