import Andren.Machine.Basic
import Andren.Network.RePoller

/-!
# Streams over sockets

A stream reads when the poller reports `EPOLLIN`: it calls `recv` until it
fails with `EAGAIN`, and passes what it gathered to `onRead`. A result of 0 or
another error ends the stream: `onClose` is called and the callback cancelled.

`tryRead` gives up what it gathered when the connection ends in the same drain.
`stream_delivered_iff` says of every run that this is the only way to lose a
byte; it is stated once for the handlers of both stream classes.
-/

namespace Andren.Network

open Machines

def EPOLLIN : Events := 1

/-- On Linux `EWOULDBLOCK` is `EAGAIN`. -/
def EAGAIN : Int := 11

def EWOULDBLOCK : Int := 11

/-- The bytes of one successful `recv` into a buffer of 128. -/
abbrev Piece := { bytes : List UInt8 // 0 < bytes.length ∧ bytes.length ≤ 128 }

/-- What `recv` returned; an error comes with its `errno`. -/
inductive RecvResult
  | data (bytes : Piece)
  | zero
  | error (errno : Int)

/-- `SockStream::tryRead` and `SSLStream::tryRead`, which are the same, on the
results that `recv` returns in turn; also the results not asked for. -/
def tryRead (rddata : List UInt8) : List RecvResult → Option (Int × List UInt8 × List RecvResult)
  | [] => none
  | .error errno :: rest =>
    if errno = EAGAIN ∨ errno = EWOULDBLOCK then some (rddata.length, rddata, rest)
    else some (0, [], rest)
  | .zero :: rest => some (0, [], rest)
  | .data bytes :: rest => tryRead (rddata ++ bytes.val) rest

inductive Outcome
  | read (key : Int) (value : List UInt8)
  | close
  | ignore

def SockStream.outcome (key : Int) (value : List UInt8) : Outcome :=
  if key ≤ 0 then .close else .read key value

def SockStream.drain (recvs : List RecvResult) : Option (List RecvResult × Outcome) :=
  match tryRead [] recvs with
  | some (key, value, []) => some (recvs, outcome key value)
  | _ => none

-- ---------------------------------------------------------------------------
-- A stream under the poller
-- ---------------------------------------------------------------------------

structure Stream where
  alive : Bool
  /-- The poller holds the callback of the stream's descriptor. -/
  registered : Bool
  m_onRead : Bool
  m_onClose : Bool

inductive StreamAct (ι : Type)
  /-- The poller calls the callback; `input` is what its reads get. -/
  | ready (events : Events) (input : ι)
  | drop
  | cancle

inductive StreamEv
  /-- The results of the calls of `recv` during one event. -/
  | received (recvs : List RecvResult)
  | onRead (ret : Int) (value : List UInt8)
  | onClose

/-- A stream that listens, with its callbacks set as the headers ask. -/
def stream (drain : ι → Option (List RecvResult × Outcome)) : Machine Stream (StreamAct ι) StreamEv where
  init := ⟨true, true, true, true⟩
  step s
    | .ready events input =>
      if ¬s.registered then none
      else if ¬s.alive then some (s, [])
      else if events &&& EPOLLIN = 0 then some (s, [])
      else match drain input with
        | none => none
        | some (recvs, .read key value) =>
          some (s, .received recvs :: if s.m_onRead then [.onRead key value] else [])
        | some (recvs, .close) =>
          some ({ s with registered := false },
            .received recvs :: if s.m_onClose then [.onClose] else [])
        | some (recvs, .ignore) => some (s, [.received recvs])
    | .drop => some ({ s with alive := false }, [])
    | .cancle => some ({ s with registered := false }, [])

def sockStream : Machine Stream (StreamAct (List RecvResult)) StreamEv := stream SockStream.drain

inductive Woken (drain : ι → Option (List RecvResult × Outcome)) (s : Stream) : Stream → List StreamEv → Prop
  | idle : Woken drain s s []
  | read : drain input = some (recvs, .read key value) →
      Woken drain s s (.received recvs :: if s.m_onRead then [.onRead key value] else [])
  | close : drain input = some (recvs, .close) →
      Woken drain s { s with registered := false } (.received recvs :: if s.m_onClose then [.onClose] else [])
  | ignore : drain input = some (recvs, .ignore) → Woken drain s s [.received recvs]

theorem ready_woken {drain : ι → Option (List RecvResult × Outcome)}
    (hs : (stream drain).step s (.ready events input) = some (s', es)) :
    s.registered = true ∧ Woken drain s s' es := by
  simp only [stream] at hs
  obtain ⟨hreg, hs⟩ := Option.ite_none_left_eq_some.mp hs
  refine ⟨not_not.mp hreg, ?_⟩
  split at hs
  · cases hs
    exact .idle
  · split at hs
    · cases hs
      exact .idle
    · split at hs
      · cases hs
      · rename_i hout
        cases hs
        exact .read hout
      · rename_i hout
        cases hs
        exact .close hout
      · rename_i hout
        cases hs
        exact .ignore hout

-- ---------------------------------------------------------------------------
-- What a drain reads
-- ---------------------------------------------------------------------------

def RecvResult.bytes : RecvResult → List UInt8
  | .data bytes => bytes.val
  | _ => []

def RecvResult.disconnects : RecvResult → Bool
  | .data _ => false
  | .zero => true
  | .error errno => ¬(errno = EAGAIN ∨ errno = EWOULDBLOCK)

def bytesOf (recvs : List RecvResult) : List UInt8 := recvs.flatMap RecvResult.bytes

/-- Data arrives together with the end of the connection. -/
def EndsAfterData (recvs : List RecvResult) : Prop :=
  bytesOf recvs ≠ [] ∧ recvs.any RecvResult.disconnects = true

theorem tryRead_eq (h : tryRead rddata recvs = some (key, value, [])) :
    (recvs.any RecvResult.disconnects = false ∧ value = rddata ++ bytesOf recvs ∧ key = value.length) ∨
      (recvs.any RecvResult.disconnects = true ∧ value = [] ∧ key = 0) := by
  induction recvs generalizing rddata with
  | nil => cases h
  | cons r recvs ih =>
    cases r with
    | data bytes =>
      rcases ih h with ⟨hno, hvalue, hkey⟩ | ⟨hdis, hvalue, hkey⟩
      · refine .inl ⟨by simpa [RecvResult.disconnects] using hno, ?_, hkey⟩
        rw [hvalue, List.append_assoc]
        rfl
      · exact .inr ⟨by simp [hdis], hvalue, hkey⟩
    | zero =>
      cases h
      exact .inr ⟨rfl, rfl, rfl⟩
    | error errno =>
      simp only [tryRead] at h
      split at h <;> cases h
      · rename_i hagain
        exact .inl ⟨by simp [RecvResult.disconnects, hagain], by simp [bytesOf, RecvResult.bytes], rfl⟩
      · rename_i hagain
        exact .inr ⟨by simp [RecvResult.disconnects, hagain], rfl, rfl⟩

/-- A drain either passes on all it read, or closes after it read nothing or
read up to the end of the connection. -/
def Drains (drain : ι → Option (List RecvResult × Outcome)) : Prop :=
  ∀ input recvs out, drain input = some (recvs, out) →
    (recvs.any RecvResult.disconnects = false ∧ ∃ key, out = .read key (bytesOf recvs)) ∨
      (out = .close ∧ (bytesOf recvs = [] ∨ recvs.any RecvResult.disconnects = true))

theorem sockStream_drains : Drains SockStream.drain := by
  intro input recvs out h
  unfold SockStream.drain at h
  split at h
  · rename_i key value hread
    cases h
    unfold SockStream.outcome
    rcases tryRead_eq hread with ⟨hno, rfl, rfl⟩ | ⟨hdis, rfl, rfl⟩
    · split
      · rename_i hkey
        refine .inr ⟨rfl, .inl ?_⟩
        simpa using hkey
      · exact .inl ⟨hno, _, rfl⟩
    · exact .inr ⟨rfl, .inr hdis⟩
  · cases h

-- ---------------------------------------------------------------------------
-- Whole runs
-- ---------------------------------------------------------------------------

def drains : List StreamEv → List (List RecvResult)
  | [] => []
  | .received recvs :: tr => recvs :: drains tr
  | _ :: tr => drains tr

def receivedBytes (tr : List StreamEv) : List UInt8 := (drains tr).flatMap bytesOf

def delivered : List StreamEv → List UInt8
  | [] => []
  | .received _ :: tr => delivered tr
  | .onRead _ value :: tr => value ++ delivered tr
  | .onClose :: _ => []

theorem drains_append (tr tr' : List StreamEv) : drains (tr ++ tr') = drains tr ++ drains tr' := by
  induction tr with
  | nil => rfl
  | cons e tr ih => cases e <;> simp [drains, ih]

theorem receivedBytes_append (tr tr' : List StreamEv) :
    receivedBytes (tr ++ tr') = receivedBytes tr ++ receivedBytes tr' := by
  simp [receivedBytes, drains_append]

/-- No drain so far met the end of the connection behind data. -/
def Lossless (tr : List StreamEv) : Prop := ∀ recvs ∈ drains tr, ¬EndsAfterData recvs

theorem lossless_append (tr tr' : List StreamEv) :
    Lossless (tr ++ tr') ↔ Lossless tr ∧ Lossless tr' := by
  simp only [Lossless, drains_append, List.mem_append, or_imp, forall_and]

structure StreamOk (tr : List StreamEv) (s : Stream) : Prop where
  onRead : s.m_onRead = true
  /-- Before the close, whatever follows adds to what was delivered. -/
  opened : s.registered = true → ∀ tr', delivered (tr ++ tr') = delivered tr ++ delivered tr'
  whole : s.registered = true → delivered tr = receivedBytes tr ∧ Lossless tr
  iff : delivered tr = receivedBytes tr ↔ Lossless tr

theorem StreamOk.silent (h : StreamOk tr s) (hs : s'.m_onRead = s.m_onRead)
    (hreg : s'.registered = true → s.registered = true) : StreamOk (tr ++ []) s' := by
  rw [List.append_nil]
  exact ⟨hs.trans h.onRead, fun h' => h.opened (hreg h'), fun h' => h.whole (hreg h'), h.iff⟩

theorem StreamOk.read {es : List StreamEv} (h : StreamOk tr s) (hreg : s.registered = true)
    (hno : recvs.any RecvResult.disconnects = false)
    (hes : es = [.received recvs, .onRead key (bytesOf recvs)]) : StreamOk (tr ++ es) s := by
  obtain ⟨hall, hless⟩ := h.whole hreg
  have hdel (tr') : delivered (tr ++ es ++ tr') = delivered tr ++ bytesOf recvs ++ delivered tr' := by
    rw [List.append_assoc, h.opened hreg, List.append_assoc, hes]
    rfl
  have hdel' := hdel []
  rw [List.append_nil] at hdel'
  have hrec : receivedBytes (tr ++ es) = receivedBytes tr ++ bytesOf recvs := by
    rw [receivedBytes_append, hes]
    simp [receivedBytes, drains]
  have heq : delivered (tr ++ es) = receivedBytes (tr ++ es) := by
    rw [hdel', hrec, hall]
    simp [delivered]
  have hless' : Lossless (tr ++ es) := by
    rw [lossless_append, hes]
    refine ⟨hless, ?_⟩
    rintro r hr ⟨-, hdis⟩
    obtain rfl := List.mem_singleton.mp hr
    rw [hno] at hdis
    cases hdis
  refine ⟨h.onRead, ?_, fun _ => ⟨heq, hless'⟩, iff_of_true heq hless'⟩
  intro _ tr'
  rw [hdel, hdel']
  simp [delivered]

theorem StreamOk.close {es : List StreamEv} (h : StreamOk tr s) (hreg : s.registered = true)
    (hbytes : bytesOf recvs = [] ∨ recvs.any RecvResult.disconnects = true) (onClose : Bool)
    (hes : es = .received recvs :: if onClose then [.onClose] else []) :
    StreamOk (tr ++ es) { s with registered := false } := by
  obtain ⟨hall, hless⟩ := h.whole hreg
  have hdel : delivered (tr ++ es) = delivered tr := by
    rw [h.opened hreg, hes]
    cases onClose <;> exact List.append_nil _
  have hdrains : drains es = [recvs] := by
    rw [hes]
    cases onClose <;> rfl
  refine ⟨h.onRead, nofun, nofun, ?_⟩
  rw [hdel, receivedBytes_append, lossless_append, hall, List.self_eq_append_right]
  simp only [receivedBytes, Lossless, hdrains, List.flatMap_singleton, List.mem_singleton, forall_eq]
  constructor
  · rintro hnil
    exact ⟨hless, fun hends => hends.1 hnil⟩
  · rintro ⟨-, hends⟩
    rcases hbytes with hnil | hdis
    · exact hnil
    · by_contra hne
      exact hends ⟨hne, hdis⟩

theorem stream_ok {drain : ι → Option (List RecvResult × Outcome)} (hdrain : Drains drain)
    (h : (stream drain).Run tr s) : StreamOk tr s := by
  refine h.invariant ⟨rfl, fun _ _ => rfl, fun _ => ⟨rfl, nofun⟩, iff_of_true rfl nofun⟩ ?_
  intro tr s a s' es _ ih _ hs
  cases a with
  | ready events input =>
    obtain ⟨hreg, hwoken⟩ := ready_woken hs
    cases hwoken with
    | idle => exact ih.silent rfl id
    | read hout =>
      rw [ih.onRead]
      rcases hdrain _ _ _ hout with ⟨hno, key, heq⟩ | ⟨heq, -⟩
      · cases heq
        exact ih.read hreg hno rfl
      · cases heq
    | close hout =>
      rcases hdrain _ _ _ hout with ⟨-, key, heq⟩ | ⟨-, hbytes⟩
      · cases heq
      · exact ih.close hreg hbytes _ rfl
    | ignore hout =>
      rcases hdrain _ _ _ hout with ⟨-, key, heq⟩ | ⟨heq, -⟩ <;> cases heq
  | drop =>
    cases hs
    exact ih.silent rfl id
  | cancle =>
    cases hs
    exact ih.silent rfl fun h => Bool.noConfusion h

/-- In every run all bytes are delivered before the close just when no event
found data and the end of the connection together. -/
theorem stream_delivered_iff {drain : ι → Option (List RecvResult × Outcome)} (hdrain : Drains drain)
    (h : (stream drain).Run tr s) : delivered tr = receivedBytes tr ↔ Lossless tr :=
  (stream_ok hdrain h).iff

end Andren.Network
