import Andren.Base.Zlib
import Andren.Network.SockStream
import Andren.Network.StreamClose

/-!
# Two streams and what is between them

One side of a connection calls `asend` from any number of threads, on the other a `SockStream`
listens. Between them are the bytes that `send` took and `recv` has not returned; `send` may
take less than it is given, and the rest of the message is not sent again.

What is delivered is a prefix of what `onWrite` was told to be written, message after message in
the order in which `asend` accepted them (`connection_delivers`).
-/

namespace Andren.Network

open Machines Base

structure Connection (size : Nat) where
  sender : AsyncStream size
  /-- The bytes sent and not received. -/
  wire : Bytes
  /-- The sender has closed its descriptor. -/
  closed : Bool
  receiver : Stream

inductive ConnAct
  /-- When the step calls `send`, that takes up to `taken` bytes, or fails. -/
  | sender (a : AsyncAct) (taken : Option Nat)
  | receiver (a : StreamAct (List RecvResult))

inductive ConnEv
  | refused (c : Caller)
  | accepted (t : StreamTask)
  /-- `onWrite` gets the result of `send` and the message. -/
  | onWrite (ret : Int) (msg : Bytes)
  /-- The number of the closed descriptor is sent on. -/
  | strayed (ret : Int) (msg : Bytes)
  | closed
  | stream (e : StreamEv)

namespace Connection

variable {size : Nat}

def sendResult (msg : Bytes) : Option Nat → Int
  | none => -1
  | some taken => min taken msg.length

def note (s : Connection size) (taken : Option Nat) : AsyncEv → Connection size × List ConnEv
  | .refused c => (s, [.refused c])
  | .accepted _ t => (s, [.accepted t])
  | .sent _ _ msg =>
    let ret := sendResult msg taken
    if s.closed then (s, [.strayed ret msg])
    else ({ s with wire := s.wire ++ msg.take ret.toNat }, [.onWrite ret msg])
  | .closed _ => ({ s with closed := true }, [.closed])
  | .notified _ => (s, [])

def noteAll (s : Connection size) (taken : Option Nat) : List AsyncEv → Connection size × List ConnEv
  | [] => (s, [])
  | e :: es =>
    let (s, es₁) := s.note taken e
    let (s, es₂) := s.noteAll taken es
    (s, es₁ ++ es₂)

end Connection

/-- A connection; the sender's socket is `m_sock`, the receiver listens. -/
def connection (size : Nat) (m_sock : Socket) : Machine (Connection size) ConnAct ConnEv where
  init := ⟨(asyncStream .sockStream size m_sock).init, [], false, sockStream.init⟩
  step s
    | .sender a taken => do
      let (sender, es) ← (asyncStream .sockStream size m_sock).step s.sender a
      pure (Connection.noteAll { s with sender } taken es)
    | .receiver a => do
      let (receiver, es) ← sockStream.step s.receiver a
      -- `recv` returns what comes next
      if receivedBytes es <+: s.wire then
        some ({ s with receiver, wire := s.wire.drop (receivedBytes es).length }, es.map .stream)
      else none

-- ---------------------------------------------------------------------------
-- What was accepted, sent and received
-- ---------------------------------------------------------------------------

@[simp]
def ConnEv.accepts : ConnEv → List StreamTask
  | .accepted t => [t]
  | _ => []

@[simp]
def ConnEv.runs : ConnEv → List StreamTask
  | .onWrite _ msg | .strayed _ msg => [.asend msg]
  | .closed => [.aclose]
  | _ => []

@[simp]
def ConnEv.sends : ConnEv → List Bytes
  | .onWrite _ msg => [msg]
  | _ => []

@[simp]
def ConnEv.strays : ConnEv → List Bytes
  | .strayed _ msg => [msg]
  | _ => []

@[simp]
def ConnEv.writes : ConnEv → Bytes
  | .onWrite ret msg => msg.take ret.toNat
  | _ => []

@[simp]
def ConnEv.receives : ConnEv → List StreamEv
  | .stream e => [e]
  | _ => []

@[simp]
def StreamTask.message : StreamTask → List Bytes
  | .asend msg => [msg]
  | .aclose => []

def messages (tr : List ConnEv) : List Bytes := (tr.flatMap ConnEv.accepts).flatMap StreamTask.message

def sentMessages (tr : List ConnEv) : List Bytes := tr.flatMap ConnEv.sends

def writtenBytes (tr : List ConnEv) : Bytes := tr.flatMap ConnEv.writes

def received (tr : List ConnEv) : List StreamEv := tr.flatMap ConnEv.receives

-- ---------------------------------------------------------------------------
-- The sender
-- ---------------------------------------------------------------------------

section

variable {kind : StreamKind} {size : Nat}

inductive Runs (kind : StreamKind) (s s' : AsyncStream size) : List AsyncEv → Prop
  | accepted : s'.pending = s.pending ++ [t] → Runs kind s s' [.accepted c t]
  | asend : s.pending = .asend msg :: s'.pending →
      Runs kind s s' (if s.m_sock.valid then [.sent kind.sendCall s.m_sock.m_fd msg] else [])
  | aclose : s.pending = .aclose :: s'.pending →
      Runs kind s s' (.closed s.m_sock.m_fd :: match kind with
        | .dataGram => [.notified s.m_sock.m_fd]
        | .sockStream | .sslStream => [])
  | other : s'.pending = s.pending → (∀ e ∈ es, ∃ c, e = .refused c) → Runs kind s s' es

def Sends (s : AsyncStream size) : Prop := Carries (fun t => t.stream? ≠ none) (queueIndex size 0) s.ev

theorem run_runs {s s' : AsyncStream size} (h : Sends s) (hstart : StartOnce s.ev a)
    (hbegins : ∀ c j t, Begins c j t a → t.stream? ≠ none → j = queueIndex size 0)
    (hinplace : ∀ c t index, a = .addTaskASAP c (some t) index → t.stream? = none)
    (hs : s.run kind a = some (s', es)) : Sends s' ∧ s'.m_sock.m_fd = s.m_sock.m_fd ∧ Runs kind s s' es := by
  obtain ⟨ev, des, hstep, hnote⟩ := stream_run_eq hs
  have hev := h.step hstart hstep hbegins fun c t index ha ht => (ht (hinplace c t index ha)).elim
  cases h.served hstart hstep hinplace with
  | @accepted t r c hf hcall hpending =>
    obtain rfl := stream?_eq hf
    simp only [AsyncStream.noteAll, AsyncStream.note, List.append_nil, Prod.mk.injEq] at hnote
    obtain ⟨rfl, rfl⟩ := hnote
    exact ⟨hev, rfl, .accepted hpending⟩
  | @executed t r hf hpending =>
    obtain rfl := stream?_eq hf
    simp only [AsyncStream.noteAll, AsyncStream.note, List.append_nil, Prod.mk.injEq] at hnote
    obtain ⟨rfl, rfl⟩ := hnote
    cases r with
    | asend msg => exact ⟨hev, rfl, .asend hpending⟩
    | aclose => exact ⟨hev, rfl, .aclose hpending⟩
  | other hother hpending =>
    obtain ⟨hsame, hrefused⟩ := noteAll_other kind { s with ev := ev } hother
    rw [hnote] at hsame hrefused
    obtain rfl : s' = { s with ev := ev } := hsame
    exact ⟨hev, rfl, .other hpending hrefused⟩

theorem asyncStream_runs {s s' : AsyncStream size} (h : Sends s)
    (hs : (asyncStream kind size m_sock).step s a = some (s', es)) :
    Sends s' ∧ s'.m_sock.m_fd = s.m_sock.m_fd ∧ Runs kind s s' es := by
  have hcall {c t goes} (hs : s.call kind c t goes = some (s', es)) :
      Sends s' ∧ s'.m_sock.m_fd = s.m_sock.m_fd ∧ Runs kind s s' es := by
    unfold AsyncStream.call at hs
    split at hs
    · refine run_runs (a := .addTaskOf c (some (.stream t)) .io 0) h trivial ?_ nofun hs
      intro c' j t' hbegins _
      cases hbegins with
      | addTaskOf hj => exact hj
    · obtain ⟨-, hs⟩ := Option.ite_none_right_eq_some.mp hs
      cases hs
      exact ⟨h, rfl, .other rfl fun e he => ⟨c, List.mem_singleton.mp he⟩⟩
  cases a with
  | asend c msg attached => exact hcall hs
  | aclose c attached => exact hcall hs
  | exec a =>
    obtain ⟨hallow, hs⟩ := Option.ite_none_right_eq_some.mp hs
    obtain ⟨hstart, hbegins, hinplace⟩ := stream_allows hallow
    exact run_runs h hstart (fun c j t hb ht => (ht (hbegins c j t hb)).elim) hinplace hs

end

-- ---------------------------------------------------------------------------
-- The receiver
-- ---------------------------------------------------------------------------

theorem delivered_woken {drain : ι → Option (List RecvResult × Outcome)} (hdrain : Drains drain)
    (h : Woken drain s s' es) : delivered es <+: receivedBytes es := by
  cases h with
  | idle => exact List.nil_prefix
  | read hout =>
    rcases hdrain _ _ _ hout with ⟨-, key, heq⟩ | ⟨heq, -⟩
    · cases heq
      cases s.m_onRead <;> simp [delivered, receivedBytes, drains]
    · cases heq
  | close hout => cases s.m_onClose <;> exact List.nil_prefix
  | ignore hout => exact List.nil_prefix

/-- Nothing is delivered that was not received, and nothing twice. -/
theorem delivered_prefix {drain : ι → Option (List RecvResult × Outcome)} (hdrain : Drains drain)
    (h : (stream drain).Run tr s) : delivered tr <+: receivedBytes tr := by
  refine h.invariant (I := fun tr _ => delivered tr <+: receivedBytes tr) List.nil_prefix ?_
  intro tr s a s' es hrun ih _ hs
  cases a with
  | ready events input =>
    obtain ⟨hreg, hwoken⟩ := ready_woken hs
    have hok := stream_ok hdrain hrun
    rw [hok.opened hreg, receivedBytes_append, (hok.whole hreg).1]
    exact (List.prefix_append_right_inj _).mpr (delivered_woken hdrain hwoken)
  | drop | cancle =>
    cases hs
    rwa [List.append_nil]

-- ---------------------------------------------------------------------------
-- Both sides
-- ---------------------------------------------------------------------------

section

variable {size : Nat}

structure Connected (tr : List ConnEv) (s : Connection size) : Prop where
  sends : Sends s.sender
  valid : s.sender.m_sock.valid = true
  receives : sockStream.Run (received tr) s.receiver
  order : tr.flatMap ConnEv.accepts = tr.flatMap ConnEv.runs ++ s.sender.pending
  /-- What is sent first is sent before the close. -/
  sent : (tr.flatMap ConnEv.runs).flatMap StreamTask.message = sentMessages tr ++ tr.flatMap ConnEv.strays
  opened : s.closed = false → tr.flatMap ConnEv.strays = []
  wire : writtenBytes tr = receivedBytes (received tr) ++ s.wire

theorem noteAll_refused (s : Connection size) (taken : Option Nat) {es : List AsyncEv}
    (hes : ∀ e ∈ es, ∃ c, e = .refused c) :
    (s.noteAll taken es).1 = s ∧ ∀ e ∈ (s.noteAll taken es).2, ∃ c, e = .refused c := by
  induction es with
  | nil => exact ⟨rfl, nofun⟩
  | cons e es ih =>
    obtain ⟨c, rfl⟩ := hes e (.head _)
    obtain ⟨hsame, hrefused⟩ := ih fun e' he' => hes e' (.tail _ he')
    refine ⟨hsame, fun e' he' => ?_⟩
    rcases List.mem_cons.mp he' with rfl | he'
    · exact ⟨c, rfl⟩
    · exact hrefused e' he'

theorem flatMap_refused {f : ConnEv → List α} (hf : ∀ c, f (.refused c) = []) {es : List ConnEv}
    (hes : ∀ e ∈ es, ∃ c, e = .refused c) (tr : List ConnEv) : (tr ++ es).flatMap f = tr.flatMap f := by
  rw [List.flatMap_append, List.append_right_eq_self, List.flatMap_eq_nil_iff]
  intro e he
  obtain ⟨c, rfl⟩ := hes e he
  exact hf c

theorem flatMap_stream {f : ConnEv → List α} (hf : ∀ e, f (.stream e) = []) (tr : List ConnEv)
    (es : List StreamEv) : (tr ++ es.map ConnEv.stream).flatMap f = tr.flatMap f := by
  rw [List.flatMap_append, List.append_right_eq_self, List.flatMap_eq_nil_iff]
  intro e he
  obtain ⟨e, -, rfl⟩ := List.mem_map.mp he
  exact hf e

theorem Connected.sender_step {s : Connection size} {x : AsyncStream size} (h : Connected tr s)
    (hs : (asyncStream .sockStream size m_sock).step s.sender a = some (x, es)) (taken : Option Nat) :
    Connected (tr ++ (Connection.noteAll { s with sender := x } taken es).2)
      (Connection.noteAll { s with sender := x } taken es).1 := by
  obtain ⟨hsends, hfd, hruns⟩ := asyncStream_runs h.sends hs
  obtain ⟨-, hvalid, hreceives, horder, hsent, hopened, hwire⟩ := h
  have hvalid' : x.m_sock.valid = true := by rwa [Socket.valid, hfd]
  unfold received sentMessages writtenBytes at *
  cases hruns with
  | accepted hpending =>
    refine ⟨hsends, hvalid', ?_, ?_, ?_, ?_, ?_⟩ <;>
      simp_all [Connection.noteAll, Connection.note, received, sentMessages, writtenBytes]
  | asend hpending =>
    rw [hvalid, if_pos rfl]
    cases hclosed : s.closed with
    | true =>
      refine ⟨hsends, hvalid', ?_, ?_, ?_, ?_, ?_⟩ <;>
        simp_all [Connection.noteAll, Connection.note, received, sentMessages, writtenBytes]
    | false =>
      have hstrays := hopened hclosed
      refine ⟨hsends, hvalid', ?_, ?_, ?_, ?_, ?_⟩ <;>
        simp_all [Connection.noteAll, Connection.note, received, sentMessages, writtenBytes]
  | aclose hpending =>
    refine ⟨hsends, hvalid', ?_, ?_, ?_, ?_, ?_⟩ <;>
      simp_all [Connection.noteAll, Connection.note, received, sentMessages, writtenBytes]
  | other hpending hrefused =>
    obtain ⟨hsame, hnone⟩ := noteAll_refused { s with sender := x } taken hrefused
    rw [hsame]
    refine ⟨hsends, hvalid', ?_, ?_, ?_, ?_, ?_⟩
    · rwa [received, flatMap_refused (fun _ => rfl) hnone]
    · rw [flatMap_refused (fun _ => rfl) hnone, flatMap_refused (fun _ => rfl) hnone, horder, hpending]
    · rwa [sentMessages, flatMap_refused (fun _ => rfl) hnone, flatMap_refused (fun _ => rfl) hnone,
        flatMap_refused (fun _ => rfl) hnone]
    · rwa [flatMap_refused (fun _ => rfl) hnone]
    · rwa [writtenBytes, received, flatMap_refused (fun _ => rfl) hnone, flatMap_refused (fun _ => rfl) hnone]

theorem Connected.receiver_step {s : Connection size} {x : Stream} (h : Connected tr s)
    (hs : sockStream.step s.receiver a = some (x, es)) (hnext : receivedBytes es <+: s.wire) :
    Connected (tr ++ es.map .stream)
      { s with receiver := x, wire := s.wire.drop (receivedBytes es).length } := by
  have hreceived : received (tr ++ es.map .stream) = received tr ++ es := by
    simp [received, List.flatMap_map]
  refine ⟨h.sends, h.valid, ?_, ?_, ?_, ?_, ?_⟩
  · rw [hreceived]
    exact .step h.receives trivial hs
  · rw [flatMap_stream fun _ => rfl, flatMap_stream fun _ => rfl]
    exact h.order
  · rw [sentMessages, flatMap_stream fun _ => rfl, flatMap_stream fun _ => rfl, flatMap_stream fun _ => rfl]
    exact h.sent
  · rw [flatMap_stream fun _ => rfl]
    exact h.opened
  · rw [hreceived, receivedBytes_append, writtenBytes, flatMap_stream fun _ => rfl, List.append_assoc,
      ← List.prefix_append_drop hnext]
    exact h.wire

theorem sends_new (m_sock : Socket) : Sends (asyncStream .sockStream size m_sock).init :=
  carries_new (fun t : IoTask => t.stream? ≠ none) (queueIndex size 0)

theorem connection_connected {m_sock : Socket} (hvalid : m_sock.valid = true)
    (h : (connection size m_sock).Run tr s) : Connected tr s := by
  refine h.invariant ⟨sends_new m_sock, hvalid, .refl, rfl, rfl, fun _ => rfl, rfl⟩ ?_
  intro tr s a s' es _ ih _ hs
  cases a with
  | sender a taken =>
    simp only [connection, Option.bind_eq_bind, Option.bind_eq_some_iff] at hs
    obtain ⟨⟨x, es₁⟩, hstep, hs⟩ := hs
    have hnext := ih.sender_step hstep taken
    rw [Option.some.inj hs] at hnext
    exact hnext
  | receiver a =>
    simp only [connection, Option.bind_eq_bind, Option.bind_eq_some_iff] at hs
    obtain ⟨⟨x, es₁⟩, hstep, hs⟩ := hs
    obtain ⟨hnext, hs⟩ := Option.ite_none_right_eq_some.mp hs
    cases hs
    exact ih.receiver_step hstep hnext

end

def Whole (tr : List ConnEv) : Prop := ∀ e ∈ tr, ∀ ret msg, e = .onWrite ret msg → ret = msg.length

theorem writtenBytes_whole (h : Whole tr) : writtenBytes tr = (sentMessages tr).flatten := by
  induction tr with
  | nil => rfl
  | cons e tr ih =>
    have ih := ih fun e' he' => h e' (.tail _ he')
    unfold writtenBytes sentMessages at *
    rw [List.flatMap_cons, List.flatMap_cons, List.flatten_append, ih]
    congr 1
    cases e with
    | onWrite ret msg =>
      obtain rfl := h _ (.head _) ret msg rfl
      simp
    | _ => rfl

/-- In every interleaving of the senders, the IO worker and the receiver: the messages are sent in the
order in which they were accepted, what was written is received in order and nothing else is, and
`onRead` gets all of it but for data that comes with the end of the connection. When `send` takes
messages whole, the receiver reads the beginning of all that was accepted, and all of it when the
connection is at rest and open. -/
theorem connection_delivers (size : Nat) (m_sock : Socket) (tr : List ConnEv) (s : Connection size)
    (hvalid : m_sock.valid = true) (h : (connection size m_sock).Run tr s) :
    sentMessages tr <+: messages tr ∧ writtenBytes tr = receivedBytes (received tr) ++ s.wire ∧
      delivered (received tr) <+: receivedBytes (received tr) ∧
      (delivered (received tr) = receivedBytes (received tr) ↔ Lossless (received tr)) ∧
      (Whole tr → delivered (received tr) <+: (messages tr).flatten ∧
        (s.sender.pending = [] → s.closed = false → s.wire = [] → Lossless (received tr) →
          delivered (received tr) = (messages tr).flatten)) := by
  obtain ⟨-, -, hreceives, horder, hsent, hopened, hwire⟩ := connection_connected hvalid h
  have hmessages : messages tr =
      sentMessages tr ++ (tr.flatMap ConnEv.strays ++ s.sender.pending.flatMap StreamTask.message) := by
    rw [messages, horder, List.flatMap_append, hsent, List.append_assoc]
  have hdelivered := delivered_prefix sockStream_drains hreceives
  have hlossless := stream_delivered_iff sockStream_drains hreceives
  refine ⟨⟨_, hmessages.symm⟩, hwire, hdelivered, hlossless, fun hwhole => ⟨?_, ?_⟩⟩
  · calc delivered (received tr)
      _ <+: receivedBytes (received tr) := hdelivered
      _ <+: writtenBytes tr := hwire ▸ List.prefix_append _ _
      _ <+: (messages tr).flatten := by
        rw [writtenBytes_whole hwhole, hmessages, List.flatten_append]
        exact List.prefix_append _ _
  · intro hpending hclosed hrest hless
    rw [hlossless.mpr hless, hmessages, hopened hclosed, hpending]
    rw [writtenBytes_whole hwhole, hrest, List.append_nil] at hwire
    simp [hwire]

def twoSends (steps : Nat) : List AsyncAct :=
  [.exec .start, .exec .control, .exec .control, .asend (.external 0) [72, 105] true,
    .asend (.external 1) [33] true, .exec (.pushBack (.external 0)), .exec (.pushBack (.external 1))] ++
    ioWorker steps

theorem connection_delivers_two : ∃ tr s, (connection 1 ⟨5, .live 0⟩).Run tr s ∧
    messages tr = [[72, 105], [33]] ∧ delivered (received tr) = [72, 105, 33] ∧
      delivered (received tr) <+: receivedBytes (received tr) := by
  have hr : ((connection 1 ⟨5, .live 0⟩).replay (connection 1 ⟨5, .live 0⟩).init
      ((twoSends 12).map (fun a => .sender a (some 2)) ++
        [.receiver (.ready 1 [.data ⟨[72, 105, 33], by decide⟩, .error 11])])).isSome := rfl
  have hrun := Machine.steps_of_replay (Option.some_get hr).symm
  exact ⟨_, _, hrun, rfl, rfl, (connection_delivers _ _ _ _ rfl hrun).2.2.1⟩

end Andren.Network
