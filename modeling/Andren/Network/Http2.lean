import Andren.Machine.Basic
import Andren.Machine.Trace
import Std.Data.TreeMap.Lemmas

/-!
# HTTP/2 sessions

nghttp2 parses the connection and calls the session back: when a block of
headers begins, for each of its fields, when a frame is complete, for each chunk
of data and when a stream is closed. The session has an entry for each stream,
made by whichever callback comes first.

`nghttp2OnHeader` refuses every frame, so `onNewHead` is never called and no
entry gets its id and kind; `nghttp2OnFrameRecv` tests the flags of a frame
without its type. `session_announces_heads_iff` and `session_completes_iff` say
for which callbacks the session does what its callbacks are documented to mean.
-/

namespace Andren.Network

open Machines
open Std (TreeMap)

-- ---------------------------------------------------------------------------
-- Frames
-- ---------------------------------------------------------------------------

def NGHTTP2_DATA : UInt8 := 0
def NGHTTP2_HEADERS : UInt8 := 1
def NGHTTP2_SETTINGS : UInt8 := 4
def NGHTTP2_PUSH_PROMISE : UInt8 := 5

def NGHTTP2_FLAG_END_STREAM : UInt8 := 0x1
/-- Of `SETTINGS` and `PING` frames: the bit has another meaning there. -/
def NGHTTP2_FLAG_ACK : UInt8 := 0x1
def NGHTTP2_FLAG_END_HEADERS : UInt8 := 0x4

inductive HeadersCategory
  | request
  | response
  | pushResponse
  | headers
  deriving DecidableEq

/-- `cat` is meant for `HEADERS` frames only. -/
structure Nghttp2Frame where
  type : UInt8
  flags : UInt8
  stream_id : Int
  cat : HeadersCategory
  deriving DecidableEq

def Nghttp2Frame.endStream (f : Nghttp2Frame) : Bool := f.flags &&& NGHTTP2_FLAG_END_STREAM != 0

def Nghttp2Frame.endHeaders (f : Nghttp2Frame) : Bool := f.flags &&& NGHTTP2_FLAG_END_HEADERS != 0

-- ---------------------------------------------------------------------------
-- A stream
-- ---------------------------------------------------------------------------

inductive DeriveData
  | request (headers : TreeMap String String)
  | response (headers : TreeMap String String)

def DeriveData.category : DeriveData → HeadersCategory
  | .request _ => .request
  | .response _ => .response

/-- Of a saved frame nothing is left: the move constructor that puts it into
`frames` does not copy it. -/
structure Http2ndStream where
  id : Int
  derive_data : DeriveData
  frames : List (Option Nghttp2Frame)
  recvFrameFlags : Bool

namespace Http2ndStream

def new : Http2ndStream := ⟨0, .request ∅, [], false⟩

def push_frame (x : Http2ndStream) (_frame : Nghttp2Frame) : Http2ndStream :=
  if x.recvFrameFlags then { x with frames := x.frames ++ [none] } else x

def push_header (x : Http2ndStream) (name value : String) : Http2ndStream :=
  { x with derive_data := match x.derive_data with
    | .request headers => .request (headers.insert name value)
    | .response headers => .response (headers.insert name value) }

def initAs (x : Http2ndStream) (d : DeriveData) : Http2ndStream := { x with derive_data := d }

end Http2ndStream

-- ---------------------------------------------------------------------------
-- The session
-- ---------------------------------------------------------------------------

/-- `user_data` are the streams for which nghttp2 was given the entry's address. -/
structure Http2ndSession where
  streams : TreeMap Int Http2ndStream
  user_data : Int → Bool

/-- What nghttp2 calls, and what the session calls of the user's. Streams are
named by their number in nghttp2. -/
inductive Http2Ev
  | beginHeaders (frame : Nghttp2Frame)
  | header (frame : Nghttp2Frame) (name value : String)
  /-- `headDone` is what `onHeadDone` returns if it is called. -/
  | frameRecv (frame : Nghttp2Frame) (headDone : Int)
  | streamClose (stream_id : Int)
  | onNewHead (stream_id : Int)
  | onPushPromiseFrame (stream_id : Int)
  | onHeadDone (stream_id : Int) (ret : Int)
  | onReqRecvDone (stream_id : Int)
  | onDataChunkRecv (stream_id : Int) (flags : UInt8) (data : List UInt8)
  | onStreamClosed (stream_id : Int) (error_code : Nat)
  deriving DecidableEq

namespace Http2ndSession

def insert (s : Http2ndSession) (k : Int) (x : Http2ndStream) : Http2ndSession :=
  { s with streams := s.streams.insert k x }

/-- `streams[k]`, which makes the entry when there is none. -/
def entry (s : Http2ndSession) (k : Int) : Http2ndStream := (s.streams[k]?).getD .new

/-- The entry of a callback: the one that nghttp2 has the address of, or
`streams[k]`. An address of an entry that is gone is none. -/
def streamData (s : Http2ndSession) (k : Int) : Option Http2ndStream :=
  if s.user_data k then s.streams[k]? else some (s.entry k)

/-- Both callbacks are called with what they return. -/
def nghttp2OnFrameRecv (s : Http2ndSession) (frame : Nghttp2Frame) (headDone reqRecvDone : Int) :
    Option (Http2ndSession × Int × List Http2Ev) := do
  let stream_data ← s.streamData frame.stream_id
  let s := s.insert frame.stream_id (stream_data.push_frame frame)
  let (ret, es) := if frame.endHeaders then (headDone, [.onHeadDone frame.stream_id headDone]) else (0, [])
  if ret ≠ 0 then pure (s, ret, es)
  else if frame.endStream then pure (s, reqRecvDone, es ++ [.onReqRecvDone frame.stream_id])
  else pure (s, ret, es)

def nghttp2OnStreamClose (s : Http2ndSession) (stream_id : Int) (error_code : Nat) (streamClosed : Int) :
    Http2ndSession × Int × List Http2Ev :=
  match s.streams[stream_id]? with
  | none => (s, 0, [])
  | some _ =>
    ({ s with streams := s.streams.erase stream_id }, streamClosed, [.onStreamClosed stream_id error_code])

def nghttp2OnHeadDone (s : Http2ndSession) (frame : Nghttp2Frame) (name value : String) :
    Option (Http2ndSession × Int) := do
  let stream_data ← s.streamData frame.stream_id
  pure (s.insert frame.stream_id (stream_data.push_header name value), 0)

def nghttp2OnHeader (s : Http2ndSession) (frame : Nghttp2Frame) (newHead : Int) :
    Http2ndSession × Int × List Http2Ev :=
  if frame.type ≠ NGHTTP2_HEADERS ∨ frame.cat ≠ .request ∨ frame.cat ≠ .response ∨
      frame.cat ≠ .pushResponse then
    (s, 0, [])
  else
    let k := frame.stream_id
    let stream := { s.entry k with id := k }
    let stream := match frame.cat with
      | .request => stream.initAs (.request ∅)
      | .response => stream.initAs (.response ∅)
      | .pushResponse | .headers => stream
    let promised := if frame.cat = .pushResponse then [.onPushPromiseFrame k] else []
    let s := { s.insert k stream with user_data := Function.update s.user_data k true }
    if frame.cat = .pushResponse then (s, 0, promised ++ [.onPushPromiseFrame k])
    else (s, newHead, promised ++ [.onNewHead k])

def nghttp2OnDataChunkRecv (s : Http2ndSession) (flags : UInt8) (stream_id : Int) (data : List UInt8)
    (dataChunkRecv : Int) : Option (Http2ndSession × Int × List Http2Ev) := do
  let stream_data ← s.streamData stream_id
  pure (s.insert stream_id stream_data, dataChunkRecv, [.onDataChunkRecv stream_id flags data])

end Http2ndSession

/-- A session, and the block of headers that nghttp2 is in. -/
structure Http2State where
  session : Http2ndSession
  block : Option Nghttp2Frame

inductive Http2Act
  | beginHeaders (frame : Nghttp2Frame) (newHead : Int)
  | header (name value : String)
  | frameRecv (frame : Nghttp2Frame) (headDone reqRecvDone : Int)
  | dataChunkRecv (flags : UInt8) (stream_id : Int) (data : List UInt8) (ret : Int)
  | streamClose (stream_id : Int) (error_code : Nat) (ret : Int)

/-- The fields of a block come after its beginning and before the next frame.
Any frame may be complete at any time, and nghttp2 may go on whatever a callback
returns. -/
def http2Session : Machine Http2State Http2Act Http2Ev where
  init := ⟨⟨∅, fun _ => false⟩, none⟩
  step s
    | .beginHeaders frame newHead =>
      if frame.type = NGHTTP2_HEADERS ∨ frame.type = NGHTTP2_PUSH_PROMISE then
        let (session, _, es) := s.session.nghttp2OnHeader frame newHead
        some (⟨session, some frame⟩, .beginHeaders frame :: es)
      else none
    | .header name value => do
      let frame ← s.block
      let (session, _) ← s.session.nghttp2OnHeadDone frame name value
      pure (⟨session, s.block⟩, [.header frame name value])
    | .frameRecv frame headDone reqRecvDone => do
      let (session, _, es) ← s.session.nghttp2OnFrameRecv frame headDone reqRecvDone
      pure (⟨session, none⟩, .frameRecv frame headDone :: es)
    | .dataChunkRecv flags stream_id data ret => do
      let (session, _, es) ← s.session.nghttp2OnDataChunkRecv flags stream_id data ret
      pure ({ s with session := session }, es)
    | .streamClose stream_id error_code ret =>
      let (session, _, es) := s.session.nghttp2OnStreamClose stream_id error_code ret
      let user_data := Function.update session.user_data stream_id false
      some ({ s with session := { session with user_data } }, .streamClose stream_id :: es)

-- ---------------------------------------------------------------------------
-- What the callbacks are to mean
-- ---------------------------------------------------------------------------

def Nghttp2Frame.opens (f : Nghttp2Frame) : Bool :=
  f.type == NGHTTP2_HEADERS && (f.cat == .request || f.cat == .response)

namespace Http2Ev

def begins (k : Int) : Http2Ev → Bool
  | .beginHeaders f => f.opens && f.stream_id == k
  | _ => false

def newHead (k : Int) : Http2Ev → Bool
  | .onNewHead j => j == k
  | _ => false

def stores (k : Int) : Http2Ev → Bool
  | .header f _ _ => f.stream_id == k
  | _ => false

end Http2Ev

/-- The category of the block that opened the stream `k`, or `o` if it was open before. -/
def openedBy (k : Int) : Option HeadersCategory → List Http2Ev → Option HeadersCategory
  | o, [] => o
  | o, .beginHeaders f :: tr => openedBy k (if f.opens && f.stream_id == k then o.or (some f.cat) else o) tr
  | o, .streamClose j :: tr => openedBy k (if j = k then none else o) tr
  | o, _ :: tr => openedBy k o tr

/-- `onNewHead` is called once for each block of a request or a response, before
a field of it is stored, and an open stream has its id and kind. -/
structure HeadsAnnounced (tr : List Http2Ev) (s : Http2State) : Prop where
  once : ∀ k, tr.countP (Http2Ev.begins k) = tr.countP (Http2Ev.newHead k)
  before : Always (fun t e => ∀ k, e.stores k = true →
    t.countP (Http2Ev.begins k) = t.countP (Http2Ev.newHead k)) tr
  entry : ∀ k cat, openedBy k none tr = some cat →
    ∃ x, s.session.streams[k]? = some x ∧ x.id = k ∧ x.derive_data.category = cat

def Nghttp2Frame.isMessage (f : Nghttp2Frame) : Bool := f.type == NGHTTP2_HEADERS || f.type == NGHTTP2_DATA

/-- `onReqRecvDone` comes right after the last frame of a message, and after
`onHeadDone` if that is due, which returned 0. -/
def CompletesRightly (t : List Http2Ev) : Http2Ev → Prop
  | .onReqRecvDone k => ∃ t' f headDone,
    t = t' ++ .frameRecv f headDone :: (if f.endHeaders then [.onHeadDone k 0] else []) ∧
      f.stream_id = k ∧ k ≠ 0 ∧ f.isMessage = true ∧ f.endStream = true
  | _ => True

def CompletionsGenuine (tr : List Http2Ev) : Prop := Always CompletesRightly tr

/-- The frame has no bit that could be taken for the end of a stream, or ends
one, or the user's `onHeadDone` refuses it. -/
def Nghttp2Frame.Clear (f : Nghttp2Frame) (headDone : Int) : Prop :=
  f.endStream = false ∨ f.isMessage = true ∧ f.stream_id ≠ 0 ∨ f.endHeaders = true ∧ headDone ≠ 0

-- ---------------------------------------------------------------------------
-- What the callbacks do
-- ---------------------------------------------------------------------------

/-- No category is all three of those that the condition asks for. -/
theorem nghttp2OnHeader_eq (s : Http2ndSession) (f : Nghttp2Frame) (newHead : Int) :
    s.nghttp2OnHeader f newHead = (s, 0, []) := by
  refine if_pos (.inr ?_)
  cases f.cat <;> decide

def frameCalls (f : Nghttp2Frame) (headDone : Int) : List Http2Ev :=
  (if f.endHeaders then [.onHeadDone f.stream_id headDone] else []) ++
    if f.endHeaders && headDone ≠ 0 then [] else if f.endStream then [.onReqRecvDone f.stream_id] else []

theorem nghttp2OnFrameRecv_eq {s s' : Http2ndSession}
    (hs : s.nghttp2OnFrameRecv f headDone reqRecvDone = some (s', ret, es)) :
    ∃ x, s.streamData f.stream_id = some x ∧ s' = s.insert f.stream_id (x.push_frame f) ∧
      es = frameCalls f headDone := by
  simp only [Http2ndSession.nghttp2OnFrameRecv, Option.bind_eq_bind] at hs
  obtain ⟨x, hx, hs⟩ := Option.bind_eq_some_iff.mp hs
  refine ⟨x, hx, ?_⟩
  unfold frameCalls
  by_cases hhead : f.endHeaders = true <;> by_cases hend : f.endStream = true <;>
    by_cases hret : headDone = 0 <;> simp [hhead, hend, hret] at hs ⊢ <;> obtain ⟨rfl, -, rfl⟩ := hs <;>
    exact ⟨rfl, rfl⟩

inductive Http2Step (s : Http2State) : Http2Act → Http2State → List Http2Ev → Prop
  | beginHeaders : f.type = NGHTTP2_HEADERS ∨ f.type = NGHTTP2_PUSH_PROMISE →
      Http2Step s (.beginHeaders f newHead) ⟨s.session, some f⟩ [.beginHeaders f]
  | header : s.block = some f → s.session.streamData f.stream_id = some x →
      Http2Step s (.header name value) ⟨s.session.insert f.stream_id (x.push_header name value), s.block⟩
        [.header f name value]
  | frameRecv : s.session.streamData f.stream_id = some x →
      Http2Step s (.frameRecv f headDone reqRecvDone)
        ⟨s.session.insert f.stream_id (x.push_frame f), none⟩
        (.frameRecv f headDone :: frameCalls f headDone)
  | dataChunkRecv : s.session.streamData stream_id = some x →
      Http2Step s (.dataChunkRecv flags stream_id data ret) ⟨s.session.insert stream_id x, s.block⟩
        [.onDataChunkRecv stream_id flags data]
  | closeAbsent : s.session.streams[stream_id]? = none →
      Http2Step s (.streamClose stream_id error_code ret)
        ⟨⟨s.session.streams, Function.update s.session.user_data stream_id false⟩, s.block⟩ [.streamClose stream_id]
  | close : s.session.streams[stream_id]? = some x →
      Http2Step s (.streamClose stream_id error_code ret)
        ⟨⟨s.session.streams.erase stream_id, Function.update s.session.user_data stream_id false⟩, s.block⟩
        [.streamClose stream_id, .onStreamClosed stream_id error_code]

theorem http2Session_step {s s' : Http2State} (hs : http2Session.step s a = some (s', es)) : Http2Step s a s' es := by
  cases a with
  | beginHeaders frame newHead =>
    simp only [http2Session, nghttp2OnHeader_eq] at hs
    obtain ⟨htype, hs⟩ := Option.ite_none_right_eq_some.mp hs
    cases hs
    exact .beginHeaders htype
  | header name value =>
    simp only [http2Session, Http2ndSession.nghttp2OnHeadDone, Option.bind_eq_bind] at hs
    obtain ⟨frame, hblock, hs⟩ := Option.bind_eq_some_iff.mp hs
    obtain ⟨_, hdone, hs⟩ := Option.bind_eq_some_iff.mp hs
    obtain ⟨x, hx, hdone⟩ := Option.bind_eq_some_iff.mp hdone
    cases hdone
    cases hs
    exact .header hblock hx
  | frameRecv frame headDone reqRecvDone =>
    obtain ⟨⟨session, ret, es'⟩, hrecv, hs⟩ := Option.bind_eq_some_iff.mp hs
    cases hs
    obtain ⟨x, hx, rfl, rfl⟩ := nghttp2OnFrameRecv_eq hrecv
    exact .frameRecv hx
  | dataChunkRecv flags stream_id data ret =>
    simp only [http2Session, Http2ndSession.nghttp2OnDataChunkRecv, Option.bind_eq_bind] at hs
    obtain ⟨_, hrecv, hs⟩ := Option.bind_eq_some_iff.mp hs
    obtain ⟨x, hx, hrecv⟩ := Option.bind_eq_some_iff.mp hrecv
    cases hrecv
    cases hs
    exact .dataChunkRecv hx
  | streamClose stream_id error_code ret =>
    simp only [http2Session, Http2ndSession.nghttp2OnStreamClose] at hs
    split at hs
    next hnone =>
      cases hs
      exact .closeAbsent hnone
    next hsome =>
      cases hs
      exact .close hsome

inductive Http2Shown : List Http2Ev → Prop
  | frame (f : Nghttp2Frame) (headDone : Int) : Http2Shown (.frameRecv f headDone :: frameCalls f headDone)
  | other : (∀ e ∈ es, (∀ k, e ≠ .onNewHead k) ∧ (∀ k, e ≠ .onReqRecvDone k) ∧
      ∀ f headDone, e ≠ .frameRecv f headDone) → Http2Shown es

theorem http2Session_shown {s s' : Http2State} (hs : http2Session.step s a = some (s', es)) :
    Http2Shown es := by
  cases http2Session_step hs with
  | frameRecv => exact .frame ..
  | _ => exact .other (by simp)

-- ---------------------------------------------------------------------------
-- Heads
-- ---------------------------------------------------------------------------

theorem no_newHead (h : http2Session.Run tr s) (k : Int) : .onNewHead k ∉ tr := by
  refine h.invariant (I := fun tr _ => .onNewHead k ∉ tr) List.not_mem_nil ?_
  intro tr s a s' es _ ih _ hs hmem
  rcases List.mem_append.mp hmem with hmem | hmem
  · exact ih hmem
  · cases http2Session_shown hs with
    | frame f headDone =>
      unfold frameCalls at hmem
      cases f.endHeaders <;> cases f.endStream <;> by_cases hret : headDone = 0 <;> simp [hret] at hmem
    | other hother => exact (hother _ hmem).1 k rfl

theorem countP_newHead {tr : List Http2Ev} (h : ∀ k, .onNewHead k ∉ tr) (k : Int) :
    tr.countP (Http2Ev.newHead k) = 0 := by
  refine List.countP_eq_zero.mpr fun e he => ?_
  cases e with
  | onNewHead j => exact (h j he).elim
  | _ => nofun

theorem countP_begins {tr : List Http2Ev} (h : ∀ f, .beginHeaders f ∈ tr → f.opens = false) (k : Int) :
    tr.countP (Http2Ev.begins k) = 0 := by
  refine List.countP_eq_zero.mpr fun e he => ?_
  cases e with
  | beginHeaders f =>
    rw [Http2Ev.begins, h f he]
    nofun
  | _ => nofun

theorem openedBy_none {tr : List Http2Ev} (h : ∀ f, .beginHeaders f ∈ tr → f.opens = false) :
    openedBy k none tr = none := by
  induction tr with
  | nil => rfl
  | cons e tr ih =>
    have ih := ih fun f hf => h f (.tail _ hf)
    cases e with
    | beginHeaders f =>
      rw [openedBy, h f (.head _)]
      exact ih
    | streamClose j =>
      rw [openedBy, ite_self]
      exact ih
    | _ => exact ih

structure EntriesDefault (s : Http2ndSession) : Prop where
  user_data : ∀ k, s.user_data k = false
  entry : ∀ (k : Int) x, s.streams[k]? = some x → x.id = 0 ∧ x.derive_data.category = .request

theorem EntriesDefault.insert {s : Http2ndSession} (h : EntriesDefault s)
    (hx : x.id = 0 ∧ x.derive_data.category = .request) (k : Int) : EntriesDefault (s.insert k x) := by
  refine ⟨h.user_data, fun j y hy => ?_⟩
  rw [Http2ndSession.insert, TreeMap.getElem?_insert] at hy
  split at hy
  · exact Option.some.inj hy ▸ hx
  · exact h.entry j y hy

theorem EntriesDefault.eq_entry {s : Http2ndSession} (h : EntriesDefault s) (hx : s.streamData k = some x) :
    x = s.entry k := by
  rw [Http2ndSession.streamData, h.user_data] at hx
  exact (Option.some.inj hx).symm

theorem EntriesDefault.streamData {s : Http2ndSession} (h : EntriesDefault s) (hx : s.streamData k = some x) :
    x.id = 0 ∧ x.derive_data.category = .request := by
  rw [h.eq_entry hx]
  unfold Http2ndSession.entry
  cases hentry : s.streams[k]? with
  | none => exact ⟨rfl, rfl⟩
  | some y => exact h.entry k y hentry

theorem push_header_default {x : Http2ndStream} (hx : x.id = 0 ∧ x.derive_data.category = .request)
    (name value : String) :
    (x.push_header name value).id = 0 ∧ (x.push_header name value).derive_data.category = .request := by
  refine ⟨hx.1, ?_⟩
  have hcat := hx.2
  unfold Http2ndStream.push_header
  cases hdata : x.derive_data with
  | request headers => rfl
  | response headers =>
    rw [hdata] at hcat
    cases hcat

theorem push_frame_default {x : Http2ndStream} (hx : x.id = 0 ∧ x.derive_data.category = .request)
    (f : Nghttp2Frame) : (x.push_frame f).id = 0 ∧ (x.push_frame f).derive_data.category = .request := by
  unfold Http2ndStream.push_frame
  split
  · exact hx
  · exact hx

theorem EntriesDefault.step (h : EntriesDefault s.session) (hs : http2Session.step s a = some (s', es)) :
    EntriesDefault s'.session := by
  have hclosed : ∀ j k, Function.update s.session.user_data j false k = false := by
    intro j k
    rw [Function.update_apply, h.user_data, ite_self]
  cases http2Session_step hs with
  | beginHeaders _ => exact h
  | header _ hx => exact h.insert (push_header_default (h.streamData hx) ..) _
  | frameRecv hx => exact h.insert (push_frame_default (h.streamData hx) _) _
  | dataChunkRecv hx => exact h.insert (h.streamData hx) _
  | closeAbsent _ => exact ⟨hclosed _, h.entry⟩
  | close _ =>
    refine ⟨hclosed _, fun k x hx => ?_⟩
    rw [TreeMap.getElem?_erase] at hx
    split at hx
    · cases hx
    · exact h.entry k x hx

theorem http2_entries_default (h : http2Session.Run tr s) : EntriesDefault s.session := by
  refine h.state_invariant (I := fun s => EntriesDefault s.session) ⟨fun _ => rfl, ?_⟩ fun _ _ _ _ h _ => h.step
  intro k x hx
  rw [show http2Session.init.session.streams = ∅ from rfl, TreeMap.getElem?_emptyc] at hx
  cases hx

/-- The session does what `onNewHead` and the kinds of its streams are for just
when no request and no response begins. -/
theorem session_announces_heads_iff (tr : List Http2Ev) (s : Http2State) (h : http2Session.Run tr s) :
    HeadsAnnounced tr s ↔ ∀ f, .beginHeaders f ∈ tr → f.opens = false := by
  have hnone := no_newHead h
  constructor
  · intro hheads f hf
    by_contra hopens
    have hcount := hheads.once f.stream_id
    rw [countP_newHead hnone, List.countP_eq_zero] at hcount
    exact hcount _ hf (by simpa [Http2Ev.begins] using hopens)
  · intro hbegins
    refine ⟨fun k => ?_, ?_, fun k cat hopened => ?_⟩
    · rw [countP_begins hbegins, countP_newHead hnone]
    · rintro t e t' rfl k -
      rw [countP_begins fun f hf => hbegins f (List.mem_append_left _ hf),
        countP_newHead fun k hk => hnone k (List.mem_append_left _ hk)]
    · rw [openedBy_none hbegins] at hopened
      cases hopened

theorem promise_announces : ∃ tr s, http2Session.Run tr s ∧
    .header ⟨NGHTTP2_PUSH_PROMISE, 4, 1, .headers⟩ ":path" "/" ∈ tr ∧ HeadsAnnounced tr s := by
  have hr : (http2Session.replay http2Session.init
    [.beginHeaders ⟨NGHTTP2_PUSH_PROMISE, 4, 1, .headers⟩ 0, .header ":path" "/"]).isSome := rfl
  have hrun := Machine.steps_of_replay (Option.some_get hr).symm
  refine ⟨_, _, hrun, by decide, (session_announces_heads_iff _ _ hrun).mpr fun f hf => ?_⟩
  rcases List.mem_cons.mp hf with hf | hf
  · cases hf
    rfl
  · cases List.mem_singleton.mp hf

theorem request_not_announced : ∃ tr s, http2Session.Run tr s ∧
    tr = [.beginHeaders ⟨NGHTTP2_HEADERS, 4, 1, .request⟩,
      .header ⟨NGHTTP2_HEADERS, 4, 1, .request⟩ ":path" "/"] ∧ ¬HeadsAnnounced tr s := by
  have hr : (http2Session.replay http2Session.init
    [.beginHeaders ⟨NGHTTP2_HEADERS, 4, 1, .request⟩ 0, .header ":path" "/"]).isSome := rfl
  have hrun := Machine.steps_of_replay (Option.some_get hr).symm
  refine ⟨_, _, hrun, rfl, fun h => ?_⟩
  have hone := h.once 1
  revert hone
  decide

-- ---------------------------------------------------------------------------
-- Completions
-- ---------------------------------------------------------------------------

theorem frame_of_append_eq {t t' : List Http2Ev} {f f' : Nghttp2Frame}
    (heq : t ++ .frameRecv f headDone :: (if f.endHeaders then [.onHeadDone k headDone] else []) =
      t' ++ .frameRecv f' headDone' :: (if f'.endHeaders then [.onHeadDone k' 0] else [])) : f = f' := by
  by_cases hhead : f.endHeaders = true <;> by_cases hhead' : f'.endHeaders = true
  · rw [if_pos hhead, if_pos hhead'] at heq
    cases (List.append_inj' heq rfl).2
    rfl
  · rw [if_pos hhead, if_neg hhead', List.append_cons] at heq
    cases (List.append_inj' heq rfl).2
  · rw [if_neg hhead, if_pos hhead', List.append_cons t'] at heq
    cases (List.append_inj' heq rfl).2
  · rw [if_neg hhead, if_neg hhead'] at heq
    cases (List.append_inj' heq rfl).2
    rfl

theorem completes_after (t : List Http2Ev) (f : Nghttp2Frame) (headDone : Int) (hend : f.endStream = true)
    (hdone : f.endHeaders = true → headDone = 0) :
    CompletesRightly
      (t ++ .frameRecv f headDone :: (if f.endHeaders then [.onHeadDone f.stream_id headDone] else []))
      (.onReqRecvDone f.stream_id) ↔ f.isMessage = true ∧ f.stream_id ≠ 0 := by
  constructor
  · rintro ⟨t', f', headDone', heq, -, hne, hmessage, -⟩
    exact ⟨frame_of_append_eq heq ▸ hmessage, hne⟩
  · rintro ⟨hmessage, hne⟩
    refine ⟨t, f, headDone, ?_, rfl, hne, hmessage, hend⟩
    by_cases hhead : f.endHeaders = true
    · rw [if_pos hhead, if_pos hhead, hdone hhead]
    · rw [if_neg hhead, if_neg hhead]

theorem no_completion (e : Http2Ev) (he : ∀ k, e ≠ .onReqRecvDone k) (t : List Http2Ev) :
    CompletesRightly t e := by
  cases e with
  | onReqRecvDone k => exact (he k rfl).elim
  | _ => trivial

theorem frameRecv_of_mem {f f' : Nghttp2Frame}
    (h : .frameRecv f' headDone' ∈ (.frameRecv f headDone : Http2Ev) :: frameCalls f headDone) :
    f' = f ∧ headDone' = headDone := by
  rcases List.mem_cons.mp h with h | h
  · cases h
    exact ⟨rfl, rfl⟩
  · unfold frameCalls at h
    cases f.endHeaders <;> cases f.endStream <;> by_cases hret : headDone = 0 <;> simp [hret] at h

theorem headCall_ne {f : Nghttp2Frame} (he : e ∈ (.frameRecv f headDone : Http2Ev) ::
      if f.endHeaders then [.onHeadDone k headDone] else []) (j : Int) : e ≠ .onReqRecvDone j := by
  rintro rfl
  cases hhead : f.endHeaders <;> simp [hhead] at he

theorem frameCalls_head {f : Nghttp2Frame} (h : f.endStream = true → f.endHeaders = true ∧ headDone ≠ 0) :
    frameCalls f headDone = if f.endHeaders then [.onHeadDone f.stream_id headDone] else [] := by
  unfold frameCalls
  cases hend : f.endStream with
  | false => simp
  | true =>
    obtain ⟨hhead, hne⟩ := h hend
    simp [hhead, hne]

theorem frameCalls_last {f : Nghttp2Frame} (hend : f.endStream = true)
    (hdone : f.endHeaders = true → headDone = 0) :
    frameCalls f headDone =
      (if f.endHeaders then [.onHeadDone f.stream_id headDone] else []) ++ [.onReqRecvDone f.stream_id] := by
  have hpassed : ¬(f.endHeaders && headDone ≠ 0) = true := fun h => by
    obtain ⟨hhead, hne⟩ := Bool.and_eq_true_iff.mp h
    exact of_decide_eq_true hne (hdone hhead)
  rw [frameCalls, if_neg hpassed, if_pos hend]

theorem frame_completes_iff (f : Nghttp2Frame) (headDone : Int) :
    AlwaysFrom CompletesRightly tr (.frameRecv f headDone :: frameCalls f headDone) ↔ f.Clear headDone := by
  have hheads : AlwaysFrom CompletesRightly tr
      (.frameRecv f headDone :: if f.endHeaders then [.onHeadDone f.stream_id headDone] else []) :=
    alwaysFrom_of_forall fun e he => no_completion e (headCall_ne he)
  by_cases hlast : f.endStream = true ∧ (f.endHeaders = true → headDone = 0)
  · obtain ⟨hend, hdone⟩ := hlast
    have hafter := completes_after tr f headDone hend hdone
    rw [frameCalls_last hend hdone, ← List.cons_append, alwaysFrom_append]
    constructor
    · rintro ⟨-, hcompletes, -⟩
      exact .inr (.inl (hafter.mp hcompletes))
    · rintro (hclear | hmessage | ⟨hhead, hne⟩)
      · rw [hend] at hclear
        cases hclear
      · exact ⟨hheads, hafter.mpr hmessage, trivial⟩
      · exact (hne (hdone hhead)).elim
  · have hrefused : f.endStream = true → f.endHeaders = true ∧ headDone ≠ 0 := by
      intro hend
      by_contra h
      exact hlast ⟨hend, fun hhead => by_contra fun hne => h ⟨hhead, hne⟩⟩
    rw [frameCalls_head hrefused]
    refine ⟨fun _ => ?_, fun _ => hheads⟩
    by_cases hend : f.endStream = true
    · exact .inr (.inr (hrefused hend))
    · exact .inl (by simpa using hend)

/-- The completions of a run are genuine just when those of each frame are. -/
theorem session_completes_iff (tr : List Http2Ev) (s : Http2State) (h : http2Session.Run tr s) :
    CompletionsGenuine tr ↔ ∀ f headDone, .frameRecv f headDone ∈ tr → f.Clear headDone := by
  refine h.invariant (I := fun tr _ =>
    CompletionsGenuine tr ↔ ∀ f headDone, .frameRecv f headDone ∈ tr → f.Clear headDone) ?_ ?_
  · exact ⟨fun _ => nofun, fun _ => always_nil⟩
  intro tr s a s' es _ ih _ hs
  rw [CompletionsGenuine, always_append]
  cases http2Session_shown hs with
  | frame f headDone =>
    rw [frame_completes_iff]
    constructor
    · rintro ⟨hgenuine, hclear⟩ f' headDone' hmem
      rcases List.mem_append.mp hmem with hmem | hmem
      · exact ih.mp hgenuine f' headDone' hmem
      · obtain ⟨rfl, rfl⟩ := frameRecv_of_mem hmem
        exact hclear
    · intro hclear
      exact ⟨ih.mpr fun f' headDone' hmem => hclear f' headDone' (List.mem_append_left _ hmem),
        hclear f headDone (List.mem_append_right _ (.head _))⟩
  | other hother =>
    constructor
    · rintro ⟨hgenuine, -⟩ f' headDone' hmem
      rcases List.mem_append.mp hmem with hmem | hmem
      · exact ih.mp hgenuine f' headDone' hmem
      · exact ((hother _ hmem).2.2 f' headDone' rfl).elim
    · intro hclear
      exact ⟨ih.mpr fun f' headDone' hmem => hclear f' headDone' (List.mem_append_left _ hmem),
        alwaysFrom_of_forall fun e he => no_completion e (hother e he).2.1⟩

theorem request_completes : ∃ tr s, http2Session.Run tr s ∧ .onReqRecvDone 1 ∈ tr ∧
    CompletionsGenuine tr := by
  have hr : (http2Session.replay http2Session.init [.beginHeaders ⟨NGHTTP2_HEADERS, 5, 1, .request⟩ 0,
    .frameRecv ⟨NGHTTP2_HEADERS, 5, 1, .request⟩ 0 0]).isSome := rfl
  have hrun := Machine.steps_of_replay (Option.some_get hr).symm
  refine ⟨_, _, hrun, by decide, (session_completes_iff _ _ hrun).mpr fun f headDone hf => ?_⟩
  have hrequest : f = ⟨NGHTTP2_HEADERS, 5, 1, .request⟩ ∧ headDone = 0 := by
    simpa using (List.mem_cons.mp hf).resolve_left nofun
  rw [hrequest.1]
  exact .inr (.inl ⟨rfl, by decide⟩)

theorem settings_ack_completes : ∃ tr s, http2Session.Run tr s ∧
    tr = [.frameRecv ⟨NGHTTP2_SETTINGS, NGHTTP2_FLAG_ACK, 0, .headers⟩ 0, .onReqRecvDone 0] ∧
    ¬CompletionsGenuine tr := by
  have hr : (http2Session.replay http2Session.init
    [.frameRecv ⟨NGHTTP2_SETTINGS, NGHTTP2_FLAG_ACK, 0, .headers⟩ 0 0]).isSome := rfl
  have hrun := Machine.steps_of_replay (Option.some_get hr).symm
  refine ⟨_, _, hrun, rfl, fun h => ?_⟩
  obtain ⟨t', f, headDone, -, -, hne, -⟩ := h [_] (.onReqRecvDone 0) [] rfl
  exact hne rfl

end Andren.Network
