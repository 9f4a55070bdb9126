import Andren.Machine.GrowVec
import Andren.Network.Http2

/-!
# Saved frames

A stream saves the frames it receives while that is enabled, each as an `Http2ndFrame`
with a copy of the frame in its bytes. The copy is put into the stream's vector by the
move constructor of `Http2ndFrame`, which leaves its source alone and itself all zero. So
the saved frames are the received ones only where these are all zero themselves
(`saved_frames_iff`).
-/

namespace Andren.Network

open Machines
open Std (TreeMap)

def NGHTTP2_PRIORITY : UInt8 := 2
def NGHTTP2_RST_STREAM : UInt8 := 3
def NGHTTP2_PING : UInt8 := 6
def NGHTTP2_GOAWAY : UInt8 := 7
def NGHTTP2_WINDOW_UPDATE : UInt8 := 8

-- ---------------------------------------------------------------------------
-- Frames
-- ---------------------------------------------------------------------------

structure FrameHd where
  length : Nat
  stream_id : Int
  type : UInt8
  flags : UInt8
  reserved : UInt8
  deriving DecidableEq

structure DataFrame where
  hd : FrameHd
  padlen : Nat
  deriving DecidableEq

structure PrioritySpec where
  stream_id : Int
  weight : Int
  exclusive : UInt8
  deriving DecidableEq

structure NameValue where
  name : List UInt8
  value : List UInt8
  flags : UInt8
  deriving DecidableEq

structure HeadersFrame where
  hd : FrameHd
  padlen : Nat
  pri_spec : PrioritySpec
  nvlist : List NameValue
  cat : HeadersCategory
  deriving DecidableEq

structure PriorityFrame where
  hd : FrameHd
  pri_spec : PrioritySpec
  deriving DecidableEq

structure RstStream where
  hd : FrameHd
  error_code : UInt32
  deriving DecidableEq

structure SettingsEntry where
  settings_id : Int
  value : UInt32
  deriving DecidableEq

structure SettingsFrame where
  hd : FrameHd
  ivlist : List SettingsEntry
  deriving DecidableEq

structure PushPromise where
  hd : FrameHd
  padlen : Nat
  nvlist : List NameValue
  promised_stream_id : Int
  reserved : UInt8
  deriving DecidableEq

structure PingFrame where
  hd : FrameHd
  opaque_data : Vector UInt8 8
  deriving DecidableEq

structure GoawayFrame where
  hd : FrameHd
  last_stream_id : Int
  error_code : UInt32
  opaque_data : List UInt8
  reserved : UInt8
  deriving DecidableEq

structure WindowUpdateFrame where
  hd : FrameHd
  window_size_increment : Int
  reserved : UInt8
  deriving DecidableEq

/-- Of the other types, and without a payload. -/
structure ExtensionFrame where
  hd : FrameHd
  deriving DecidableEq

/-- The union of nghttp2's frames, and that of their copies, which have the same members. -/
inductive FrameUnion
  | data (x : DataFrame)
  | headers (x : HeadersFrame)
  | priority (x : PriorityFrame)
  | rst (x : RstStream)
  | settings (x : SettingsFrame)
  | ppromise (x : PushPromise)
  | ping (x : PingFrame)
  | goaway (x : GoawayFrame)
  | wupdate (x : WindowUpdateFrame)
  | ext (x : ExtensionFrame)
  deriving DecidableEq

namespace FrameUnion

def hd : FrameUnion → FrameHd
  | .data x => x.hd
  | .headers x => x.hd
  | .priority x => x.hd
  | .rst x => x.hd
  | .settings x => x.hd
  | .ppromise x => x.hd
  | .ping x => x.hd
  | .goaway x => x.hd
  | .wupdate x => x.hd
  | .ext x => x.hd

def Types : FrameUnion → UInt8 → Prop
  | .data _, t => t = NGHTTP2_DATA
  | .headers _, t => t = NGHTTP2_HEADERS
  | .priority _, t => t = NGHTTP2_PRIORITY
  | .rst _, t => t = NGHTTP2_RST_STREAM
  | .settings _, t => t = NGHTTP2_SETTINGS
  | .ppromise _, t => t = NGHTTP2_PUSH_PROMISE
  | .ping _, t => t = NGHTTP2_PING
  | .goaway _, t => t = NGHTTP2_GOAWAY
  | .wupdate _, t => t = NGHTTP2_WINDOW_UPDATE
  | .ext _, t => NGHTTP2_WINDOW_UPDATE < t

def zero : FrameUnion := .data ⟨⟨0, 0, NGHTTP2_DATA, 0, 0⟩, 0⟩

def cat : FrameUnion → HeadersCategory
  | .headers x => x.cat
  | _ => .headers

end FrameUnion

/-- A frame that nghttp2 passes on: its type tells the member. -/
abbrev ReceivedFrame := { frame : FrameUnion // frame.Types frame.hd.type }

def ReceivedFrame.plain (f : ReceivedFrame) : Nghttp2Frame :=
  ⟨f.val.hd.type, f.val.hd.flags, f.val.hd.stream_id, f.val.cat⟩

/-- What the bytes of `frame` hold. -/
structure Http2ndFrame where
  frame : FrameUnion
  deriving DecidableEq

namespace Http2ndFrame

def new : Http2ndFrame := ⟨.zero⟩

/-- `Http2ndFrame(Http2ndFrame &&)` does not read its argument. -/
def move (_ : Http2ndFrame) : Http2ndFrame := new

def save (x : FrameUnion) : Http2ndFrame := ⟨x⟩

/-- Frames of types that have no member of their own are not copied. -/
def ofFrame (frame : ReceivedFrame) : Http2ndFrame :=
  match frame.val with
  | .data x => save (.data x)
  | .headers x => save (.headers x)
  | .priority x => save (.priority x)
  | .rst x => save (.rst x)
  | .settings x => save (.settings x)
  | .ppromise x => save (.ppromise x)
  | .ping x => save (.ping x)
  | .goaway x => save (.goaway x)
  | .wupdate x => save (.wupdate x)
  | .ext _ => new

end Http2ndFrame

-- ---------------------------------------------------------------------------
-- A session that saves frames
-- ---------------------------------------------------------------------------

structure SavingSession where
  http2 : Http2State
  frames : Int → GrowVec Http2ndFrame

inductive SavingAct
  | frameRecv (frame : ReceivedFrame) (headDone reqRecvDone : Int)
  /-- A callback that is not for a frame. -/
  | callback (a : Http2Act)
  /-- The user has the stream from a callback. -/
  | enableFrameSave (stream_id : Int) (enabledOrNot : Bool)
  | clearFrameHistory (stream_id : Int)

namespace Http2ndStream

def enableFrameSave (x : Http2ndStream) (enabledOrNot : Bool) : Http2ndStream :=
  { x with recvFrameFlags := enabledOrNot }

def clearFrameHistory (x : Http2ndStream) : Http2ndStream := { x with frames := [] }

end Http2ndStream

namespace SavingSession

def setFrames (s : SavingSession) (k : Int) (v : GrowVec Http2ndFrame) : Int → GrowVec Http2ndFrame :=
  Function.update s.frames k v

def after (s : SavingSession) : Http2Act → Int → GrowVec Http2ndFrame
  | .streamClose stream_id _ _ => s.setFrames stream_id .empty
  | _ => s.frames

def change (s : SavingSession) (k : Int) (f : Http2ndStream → Http2ndStream) : Option Http2State :=
  s.http2.session.streams[k]?.map fun x => { s.http2 with session := s.http2.session.insert k (f x) }

end SavingSession

def Http2Act.isFrameRecv : Http2Act → Bool
  | .frameRecv _ _ _ => true
  | _ => false

def savingSession : Machine SavingSession SavingAct Http2Ev where
  init := ⟨http2Session.init, fun _ => .empty⟩
  step s
    | .frameRecv frame headDone reqRecvDone => do
      let k := frame.val.hd.stream_id
      let stream_data ← s.http2.session.streamData k
      let (http2, es) ← http2Session.step s.http2 (.frameRecv frame.plain headDone reqRecvDone)
      let frames := if stream_data.recvFrameFlags then
          s.setFrames k ((s.frames k).push_back Http2ndFrame.move (.ofFrame frame))
        else s.frames
      pure (⟨http2, frames⟩, es)
    | .callback a =>
      if a.isFrameRecv then none
      else (http2Session.step s.http2 a).map fun (http2, es) => (⟨http2, s.after a⟩, es)
    | .enableFrameSave stream_id enabledOrNot =>
      (s.change stream_id fun x => x.enableFrameSave enabledOrNot).map fun http2 => (⟨http2, s.frames⟩, [])
    | .clearFrameHistory stream_id =>
      (s.change stream_id fun x => x.clearFrameHistory).map fun http2 =>
        (⟨http2, s.setFrames stream_id (s.frames stream_id).clear⟩, [])

/-- For each stream whether frames are saved, and the frames received since its vector was
last empty. -/
abbrev FramesSeen := Int → Bool × List FrameUnion

def FramesSeen.next (t : FramesSeen) : SavingAct → FramesSeen
  | .frameRecv frame _ _ =>
    let k := frame.val.hd.stream_id
    if (t k).1 then Function.update t k (true, (t k).2 ++ [frame.val]) else t
  | .callback (.streamClose stream_id _ _) => Function.update t stream_id (false, [])
  | .callback _ => t
  | .enableFrameSave stream_id enabledOrNot => Function.update t stream_id (enabledOrNot, (t stream_id).2)
  | .clearFrameHistory stream_id => Function.update t stream_id ((t stream_id).1, [])

def savingSeen : Machine (SavingSession × FramesSeen) SavingAct Http2Ev :=
  savingSession.watch (fun _ => (false, [])) fun t a _ => t.next a

/-- Each stream has saved the frames that it received. -/
def FramesSaved (s : SavingSession × FramesSeen) : Prop :=
  ∀ k, (s.1.frames k).elems.map (·.frame) = (s.2 k).2

-- ---------------------------------------------------------------------------
-- One stream
-- ---------------------------------------------------------------------------

structure Saves (x : Http2ndStream) (v : GrowVec Http2ndFrame) (seen : Bool × List FrameUnion) : Prop where
  flags : x.recvFrameFlags = seen.1
  elems : v.elems = List.replicate seen.2.length .new
  frames : x.frames = List.replicate seen.2.length none

theorem saves_new : Saves .new .empty (false, []) := ⟨rfl, rfl, rfl⟩

section

variable {x y : Http2ndStream} {v : GrowVec Http2ndFrame} {seen : Bool × List FrameUnion}

theorem Saves.settled (h : Saves x v seen) : v.Settled Http2ndFrame.move := by
  intro y hy
  rw [h.elems] at hy
  exact (List.eq_of_mem_replicate hy).symm

theorem Saves.same (h : Saves x v seen) (hflags : y.recvFrameFlags = x.recvFrameFlags) (hframes : y.frames = x.frames) :
    Saves y v seen :=
  ⟨hflags.trans h.flags, h.elems, hframes.trans h.frames⟩

theorem Saves.push_frame (h : Saves x v seen) (frame : ReceivedFrame) :
    Saves (x.push_frame frame.plain)
      (if x.recvFrameFlags then v.push_back Http2ndFrame.move (.ofFrame frame) else v)
      (if seen.1 then (true, seen.2 ++ [frame.val]) else seen) := by
  unfold Http2ndStream.push_frame
  rw [h.flags]
  split
  next hon =>
    refine ⟨hon, ?_, ?_⟩
    · rw [GrowVec.elems_push_back h.settled, h.elems, List.length_append, List.length_singleton,
        List.replicate_succ']
      rfl
    · simp [h.frames, List.replicate_succ']
  next => exact h

theorem Saves.enableFrameSave (h : Saves x v seen) (b : Bool) : Saves (x.enableFrameSave b) v (b, seen.2) :=
  ⟨rfl, h.elems, h.frames⟩

theorem Saves.clearFrameHistory (h : Saves x v seen) : Saves x.clearFrameHistory v.clear (seen.1, []) :=
  ⟨h.flags, rfl, rfl⟩

end

-- ---------------------------------------------------------------------------
-- The session
-- ---------------------------------------------------------------------------

@[simp] theorem entry_insert (s : Http2ndSession) (j : Int) (x : Http2ndStream) (k : Int) :
    (s.insert j x).entry k = if j = k then x else s.entry k := by
  simp only [Http2ndSession.entry, Http2ndSession.insert, TreeMap.getElem?_insert, Std.compare_eq_iff_eq]
  split <;> rfl

theorem update_if (g : Int → β) (k : Int) (b : Bool) (v : β) :
    (if b then Function.update g k v else g) = Function.update g k (if b then v else g k) := by
  split
  · rfl
  · exact (Function.update_eq_self _ _).symm

structure SavingInv (s : SavingSession × FramesSeen) : Prop where
  entries : EntriesDefault s.1.http2.session
  saves : ∀ k, Saves (s.1.http2.session.entry k) (s.1.frames k) (s.2 k)

section

variable {s : SavingSession} {t : FramesSeen}

theorem SavingInv.update (h : SavingInv (s, t)) (hentries : EntriesDefault session)
    (hentry : ∀ k, k ≠ j → session.entry k = s.http2.session.entry k) (hj : Saves (session.entry j) v seen)
    (block : Option Nghttp2Frame) :
    SavingInv (⟨⟨session, block⟩, s.setFrames j v⟩, Function.update t j seen) := by
  refine ⟨hentries, fun k => ?_⟩
  by_cases hk : k = j
  · subst hk
    simpa [SavingSession.setFrames] using hj
  · simpa [SavingSession.setFrames, hk, hentry k hk] using h.saves k

theorem SavingInv.store (h : SavingInv (s, t)) (hentries : EntriesDefault (s.http2.session.insert j y))
    (hx : s.http2.session.streamData j = some x) (hflags : y.recvFrameFlags = x.recvFrameFlags)
    (hframes : y.frames = x.frames) (block : Option Nghttp2Frame) :
    SavingInv (⟨⟨s.http2.session.insert j y, block⟩, s.frames⟩, t) := by
  refine ⟨hentries, fun k => ?_⟩
  rw [entry_insert]
  split
  next heq =>
    subst heq
    rw [h.entries.eq_entry hx] at hflags hframes
    exact (h.saves j).same hflags hframes
  next => exact h.saves k

theorem SavingInv.frameRecv (h : SavingInv (s, t)) (frame : ReceivedFrame)
    (hs : savingSession.step s (.frameRecv frame headDone reqRecvDone) = some (s', es)) :
    SavingInv (s', t.next (.frameRecv frame headDone reqRecvDone)) := by
  obtain ⟨x, hx, hs⟩ := Option.bind_eq_some_iff.mp hs
  obtain ⟨⟨http2, es'⟩, hstep, hs⟩ := Option.bind_eq_some_iff.mp hs
  cases hs
  have hentries := h.entries.step hstep
  have hsaves := h.saves frame.val.hd.stream_id
  rw [← h.entries.eq_entry hx] at hsaves
  rw [SavingSession.setFrames, update_if, show t.next (.frameRecv frame headDone reqRecvDone) = _ from update_if ..]
  cases http2Session_step hstep with
  | frameRecv hx' =>
    obtain rfl := Option.some.inj (hx.symm.trans hx')
    refine h.update hentries (fun k hk => ?_) ?_ none
    · rw [entry_insert]
      exact if_neg fun heq => hk heq.symm
    · rw [show ∀ y, (s.http2.session.insert frame.plain.stream_id y).entry frame.val.hd.stream_id = y from
        fun y => (entry_insert ..).trans (if_pos rfl)]
      exact hsaves.push_frame frame

theorem SavingInv.callback (h : SavingInv (s, t)) (ha : a.isFrameRecv = false)
    (hs : http2Session.step s.http2 a = some (http2, es)) :
    SavingInv (⟨http2, s.after a⟩, t.next (.callback a)) := by
  have hentries := h.entries.step hs
  cases http2Session_step hs with
  | beginHeaders _ => exact ⟨h.entries, h.saves⟩
  | header _ hx => exact h.store hentries hx rfl rfl s.http2.block
  | frameRecv _ => cases ha
  | dataChunkRecv hx => exact h.store hentries hx rfl rfl s.http2.block
  | closeAbsent hnone =>
    refine h.update hentries (fun _ _ => rfl) ?_ s.http2.block
    simp only [Http2ndSession.entry, hnone]
    exact saves_new
  | close _ =>
    refine h.update hentries (fun k hk => ?_) ?_ s.http2.block
    · simp [Http2ndSession.entry, TreeMap.getElem?_erase, Ne.symm hk]
    · simp only [Http2ndSession.entry, TreeMap.getElem?_erase_self]
      exact saves_new

theorem SavingInv.change (h : SavingInv (s, t)) (hs : s.change j f = some http2)
    (hkeeps : ∀ x, (f x).id = x.id ∧ (f x).derive_data = x.derive_data)
    (hj : ∀ x, Saves x (s.frames j) (t j) → Saves (f x) v seen) :
    SavingInv (⟨http2, s.setFrames j v⟩, Function.update t j seen) := by
  obtain ⟨x, hx, rfl⟩ := Option.map_eq_some_iff.mp hs
  have hentry : s.http2.session.entry j = x := by
    rw [Http2ndSession.entry, hx]
    rfl
  have hdefault := h.entries.entry j x hx
  rw [← (hkeeps x).1, ← (hkeeps x).2] at hdefault
  refine h.update (h.entries.insert hdefault j) (fun k hk => ?_) ?_ s.http2.block
  · rw [entry_insert, if_neg fun heq => hk heq.symm]
  · rw [entry_insert, if_pos rfl]
    exact hj x (hentry ▸ h.saves j)

theorem SavingInv.step (h : SavingInv (s, t)) (hs : savingSession.step s a = some (s', es)) :
    SavingInv (s', t.next a) := by
  cases a with
  | frameRecv frame headDone reqRecvDone => exact h.frameRecv frame hs
  | callback a =>
    obtain ⟨ha, hs⟩ := Option.ite_none_left_eq_some.mp hs
    obtain ⟨⟨http2, es'⟩, hstep, heq⟩ := Option.map_eq_some_iff.mp hs
    cases heq
    exact h.callback (by simpa using ha) hstep
  | enableFrameSave stream_id enabledOrNot =>
    obtain ⟨http2, hchange, heq⟩ := Option.map_eq_some_iff.mp hs
    cases heq
    have hnext := h.change hchange (fun _ => ⟨rfl, rfl⟩) fun x hx => hx.enableFrameSave enabledOrNot
    rwa [SavingSession.setFrames, Function.update_eq_self] at hnext
  | clearFrameHistory stream_id =>
    obtain ⟨http2, hchange, heq⟩ := Option.map_eq_some_iff.mp hs
    cases heq
    exact h.change hchange (fun _ => ⟨rfl, rfl⟩) fun x hx => hx.clearFrameHistory

end

theorem saving_inv (h : savingSeen.Run tr s) : SavingInv s := by
  refine h.state_invariant (I := SavingInv) ⟨⟨fun _ => rfl, fun k x hx => ?_⟩, fun k => ?_⟩ ?_
  · rw [show savingSeen.init.1.http2.session.streams = ∅ from rfl, TreeMap.getElem?_emptyc] at hx
    cases hx
  · exact saves_new
  · rintro ⟨s, t⟩ a ⟨s', t'⟩ es hinv _ hs
    obtain ⟨hstep, rfl⟩ := Machine.step_of_watch hs
    exact hinv.step hstep

/-- The saved frames are the received ones if and only if these are all zero. -/
theorem saved_frames_iff (tr : List Http2Ev) (s : SavingSession × FramesSeen) (h : savingSeen.Run tr s) :
    FramesSaved s ↔ ∀ k, ∀ frame ∈ (s.2 k).2, frame = .zero := by
  refine forall_congr' fun k => ?_
  have hframes : (s.1.frames k).elems.map (·.frame) = List.replicate (s.2 k).2.length .zero := by
    rw [((saving_inv h).saves k).elems, List.map_replicate]
    rfl
  rw [hframes, eq_comm, List.eq_replicate_iff]
  exact and_iff_right rfl

def headersOnOne : ReceivedFrame :=
  ⟨.headers ⟨⟨0, 1, NGHTTP2_HEADERS, NGHTTP2_FLAG_END_HEADERS, 0⟩, 0, ⟨0, 16, 0⟩, [], .request⟩, rfl⟩

def dataOnOne : ReceivedFrame := ⟨.data ⟨⟨5, 1, NGHTTP2_DATA, 0, 0⟩, 0⟩, rfl⟩

theorem saved_frames_cleared : ∃ tr s, savingSeen.Run tr s ∧ tr ≠ [] ∧ (s.2 1).1 = true ∧ FramesSaved s := by
  have hr : (savingSeen.replay savingSeen.init [.frameRecv headersOnOne 0 0, .enableFrameSave 1 true,
    .frameRecv dataOnOne 0 0, .clearFrameHistory 1]).isSome := rfl
  have hrun := Machine.steps_of_replay (Option.some_get hr).symm
  refine ⟨_, _, hrun, nofun, rfl, (saved_frames_iff _ _ hrun).mpr fun k frame hframe => ?_⟩
  by_cases hk : k = 1
  · subst hk
    cases hframe
  · change frame ∈ (Function.update (Function.update (Function.update savingSeen.init.2 1 _) 1 _) 1 _ k).2 at hframe
    simp only [Function.update_of_ne hk] at hframe
    cases hframe

/-- A saved frame of five bytes on stream 1 is one of none on stream 0. -/
theorem data_saved_as_zero : ∃ tr s, savingSeen.Run tr s ∧ (s.1.frames 1).elems = [.new] ∧
    (s.2 1).2 = [dataOnOne.val] ∧ ¬FramesSaved s := by
  have hr : (savingSeen.replay savingSeen.init [.frameRecv headersOnOne 0 0, .enableFrameSave 1 true,
    .frameRecv dataOnOne 0 0]).isSome := rfl
  have hrun := Machine.steps_of_replay (Option.some_get hr).symm
  refine ⟨_, _, hrun, rfl, rfl, fun h => ?_⟩
  exact absurd (h 1) (by decide)

end Andren.Network
