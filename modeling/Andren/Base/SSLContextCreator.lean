import Andren.Machine.LengthPrefixed
import Andren.Machine.Loop
import Mathlib.Algebra.Ring.Nat
import Mathlib.Logic.Function.Basic

/-!
# Selecting a protocol

`select_next_protocol` walks the client's list of length-prefixed names. A name
registered with a callback decides, a name registered without one is passed over,
and at a name that is not registered the walk ends, although such a name says
nothing about those behind it. So the intersection of the two lists decides if and
only if no unregistered name stands before the name selected
(`selectNextProtocol_intersects_iff`).
-/

namespace Andren.Base

open Machines

/-- `callback` is what the callback returns; an empty one is `none`. -/
structure ProtocolsHandler where
  protocol : List UInt8
  callback : Option Bool

/-- What `select_next_protocol` returns and sets. `out` is an offset into the
client's list. -/
structure Selected where
  ret : Int
  out : Option Nat
  outlen : UInt8
  deriving DecidableEq

abbrev AlpnSelectCb := List UInt8 → Nat → Selected

structure SSLContextCreator where
  m_next_proto_list : List UInt8
  m_protocbs : List UInt8 → Option (Option Bool)
  m_set_alpn_select_decide_cb : Option AlpnSelectCb
  m_endType : Int

namespace SSLContextCreator

def new (endType : Int) : SSLContextCreator := ⟨[], fun _ => none, none, endType⟩

/-- The size is cut to a byte. -/
def appendProtocolOnList (c : SSLContextCreator) (protocol : List UInt8) : SSLContextCreator :=
  let size := UInt8.ofNat protocol.length
  { c with m_next_proto_list := c.m_next_proto_list ++ size :: protocol.take size.toNat }

def registerHandler (c : SSLContextCreator) (handler : ProtocolsHandler) : SSLContextCreator :=
  let c := c.appendProtocolOnList handler.protocol
  { c with m_protocbs := Function.update c.m_protocbs handler.protocol (some handler.callback) }

def setSupportedProto (c : SSLContextCreator) (protoList : List ProtocolsHandler) (endType : Int) :
    SSLContextCreator :=
  { protoList.foldl registerHandler c with m_endType := endType }

def setSupportedProtoForServer (c : SSLContextCreator) (protoList : List ProtocolsHandler) : SSLContextCreator :=
  c.setSupportedProto protoList 1

def setSupportedProtoForClient (c : SSLContextCreator) (protoList : List ProtocolsHandler) : SSLContextCreator :=
  c.setSupportedProto protoList 2

def setCallbackForLetMeDecideOn_select_next_protocol (c : SSLContextCreator) (cb : Option AlpnSelectCb) :
    SSLContextCreator :=
  { c with m_set_alpn_select_decide_cb := cb }

/-- The test and one pass of the loop at `i`, an `unsigned int`. A read outside
the input has no result. -/
def selectBody (c : SSLContextCreator) (input : List UInt8) (inlen i : Nat) : Nat ⊕ Option Selected :=
  if i < inlen then
    match input[i]? with
    | none => .inr none
    | some byte =>
      if byte > 0 then
        let size := byte.toNat
        let p := (i + 1) % 2 ^ 32
        match slice input p size with
        | none => .inr none
        | some key => match c.m_protocbs key with
          | some (some bret) => .inr (some (if bret then ⟨0, some p, byte⟩ else ⟨-2, none, 0⟩))
          | some none => .inl ((i + (size + 1)) % 2 ^ 32)
          | none => .inr (some ⟨-3, none, 0⟩)
      else .inr (some ⟨-1, none, 0⟩)
  else .inr (some ⟨-1, none, 0⟩)

/-- What stands at a place of a list: no name, one that goes on outside the list, or a
name and the place behind it. -/
inductive NameAt
  | stop
  | outside
  | name (key : List UInt8) (next : Nat)

def nameAt (input : List UInt8) (inlen i : Nat) : NameAt :=
  if i < inlen then
    match input[i]? with
    | none => .outside
    | some byte =>
      if byte > 0 then
        match slice input ((i + 1) % 2 ^ 32) byte.toNat with
        | none => .outside
        | some key => .name key ((i + (byte.toNat + 1)) % 2 ^ 32)
      else .stop
  else .stop

def selectNextProtocol (c : SSLContextCreator) (input : List UInt8) (inlen fuel : Nat) : Option (Option Selected) :=
  match c.m_set_alpn_select_decide_cb with
  | some cb => some (some (cb input inlen))
  | none => loop (c.selectBody input inlen) fuel 0

def select (c : SSLContextCreator) : Nat → List (List UInt8) → Selected
  | _, [] => ⟨-1, none, 0⟩
  | i, name :: names => match c.m_protocbs name with
    | some (some bret) => if bret then ⟨0, some (i + 1), .ofNat name.length⟩ else ⟨-2, none, 0⟩
    | some none => c.select (i + (name.length + 1)) names
    | none => ⟨-3, none, 0⟩

/-- `name`, which `pre` precedes, is the first of the names that is registered
with a callback, and this returns `bret`. -/
def FirstSupported (c : SSLContextCreator) (names pre : List (List UInt8)) (name : List UInt8) (bret : Bool) :
    Prop :=
  (∃ post, names = pre ++ name :: post) ∧ (∀ n ∈ pre, (c.m_protocbs n).join = none) ∧
    (c.m_protocbs name).join = some bret

/-- The first supported name decides: 0 is returned when its callback returns
true, and then it is what `out` and `outlen` are set to. -/
structure Intersects (c : SSLContextCreator) (names : List (List UInt8)) (s : Selected) : Prop where
  ret_zero : s.ret = 0 ↔ ∃ pre name, c.FirstSupported names pre name true
  out_name : s.ret = 0 → ∀ pre name, c.FirstSupported names pre name true →
    s.out = some ((frames pre).length + 1) ∧ s.outlen.toNat = name.length

/-- When the first supported name is accepted, every name before it is
registered. -/
def RegisteredUpToSelected (c : SSLContextCreator) (names : List (List UInt8)) : Prop :=
  ∀ pre name, c.FirstSupported names pre name true → ∀ n ∈ pre, c.m_protocbs n ≠ none

end SSLContextCreator

section

variable {c : SSLContextCreator} {names pre : List (List UInt8)} {name : List UInt8}

open SSLContextCreator

theorem selectBody_eq (c : SSLContextCreator) (input : List UInt8) (inlen i : Nat) :
    c.selectBody input inlen i = match nameAt input inlen i with
      | .stop => .inr (some ⟨-1, none, 0⟩)
      | .outside => .inr none
      | .name key next => match c.m_protocbs key with
        | some (some bret) =>
          .inr (some (if bret then ⟨0, some ((i + 1) % 2 ^ 32), .ofNat key.length⟩ else ⟨-2, none, 0⟩))
        | some none => .inl next
        | none => .inr (some ⟨-3, none, 0⟩) := by
  by_cases hi : i < inlen
  · rcases hbyte : input[i]? with _ | byte
    · simp only [selectBody, nameAt, if_pos hi, hbyte]
    · by_cases hpos : byte > 0
      · rcases hslice : slice input ((i + 1) % 2 ^ 32) byte.toNat with _ | key
        · simp only [selectBody, nameAt, if_pos hi, hbyte, if_pos hpos, hslice]
        · have hlength : UInt8.ofNat key.length = byte := by
            rw [length_slice hslice, UInt8.ofNat_toNat]
          simp only [selectBody, nameAt, if_pos hi, hbyte, if_pos hpos, hslice, hlength]
      · simp only [selectBody, nameAt, if_pos hi, hbyte, if_neg hpos]
  · simp only [selectBody, nameAt, if_neg hi]

theorem nameAt_frames {post : List (List UInt8)} (hname : Framed name)
    (hlen : (frames (pre ++ name :: post)).length < 2 ^ 32) :
    nameAt (frames (pre ++ name :: post)) (frames (pre ++ name :: post)).length (frames pre).length =
      .name name (frames (pre ++ [name])).length := by
  have htotal : (frames (pre ++ name :: post)).length =
      (frames pre).length + (name.length + 1 + (frames post).length) := by simp
  have hlt : (frames pre).length < (frames (pre ++ name :: post)).length := by omega
  have hbyte : UInt8.ofNat name.length > 0 := by
    have hpos := hname.1
    rw [gt_iff_lt, UInt8.lt_iff_toNat_lt, hname.toNat_length]
    exact hpos
  have hp : ((frames pre).length + 1) % 2 ^ 32 = (frames pre).length + 1 := Nat.mod_eq_of_lt (by omega)
  have hnext : ((frames pre).length + (name.length + 1)) % 2 ^ 32 = (frames (pre ++ [name])).length := by
    rw [Nat.mod_eq_of_lt (by omega)]
    simp
  simp only [nameAt, if_pos hlt, getElem?_frames, if_pos hbyte, hname.toNat_length, hp, slice_frames, hnext]

theorem nameAt_end (names : List (List UInt8)) :
    nameAt (frames names) (frames names).length (frames names).length = .stop := by
  rw [nameAt, if_neg (Nat.lt_irrefl _)]

theorem selectBody_name {post : List (List UInt8)} (hname : Framed name)
    (hlen : (frames (pre ++ name :: post)).length < 2 ^ 32) :
    c.selectBody (frames (pre ++ name :: post)) (frames (pre ++ name :: post)).length (frames pre).length =
      match c.m_protocbs name with
      | some (some bret) =>
        .inr (some (if bret then ⟨0, some ((frames pre).length + 1), .ofNat name.length⟩ else ⟨-2, none, 0⟩))
      | some none => .inl (frames (pre ++ [name])).length
      | none => .inr (some ⟨-3, none, 0⟩) := by
  have hlt : (frames pre).length < (frames (pre ++ name :: post)).length := by
    rw [frames_append, frames_cons, List.length_append, List.length_append, length_frame]
    omega
  rw [selectBody_eq, nameAt_frames hname hlen]
  simp only [Nat.mod_eq_of_lt (Nat.lt_of_le_of_lt hlt hlen)]

theorem selectBody_end : c.selectBody (frames names) (frames names).length (frames names).length =
    .inr (some ⟨-1, none, 0⟩) := by
  rw [selectBody_eq, nameAt_end]

theorem loop_selectBody (pre rest : List (List UInt8)) (hnames : ∀ n ∈ rest, Framed n)
    (hlen : (frames (pre ++ rest)).length < 2 ^ 32) :
    Returns (loop (c.selectBody (frames (pre ++ rest)) (frames (pre ++ rest)).length) · (frames pre).length)
      (some (c.select (frames pre).length rest)) := by
  induction rest generalizing pre with
  | nil =>
    refine ⟨1, ?_⟩
    simp only [List.append_nil, loop, selectBody_end, select]
  | cons name rest ih =>
    have hbody := selectBody_name (c := c) (hnames name (.head _)) hlen
    rcases hcb : c.m_protocbs name with _ | _ | bret
    · refine ⟨1, ?_⟩
      simp only [loop, hbody, select, hcb]
    · obtain ⟨fuel, hrest⟩ := ih (pre ++ [name]) (fun n hn => hnames n (.tail _ hn)) (by simpa using hlen)
      have hassoc : pre ++ [name] ++ rest = pre ++ name :: rest := by simp
      have hnext : (frames (pre ++ [name])).length = (frames pre).length + (name.length + 1) := by simp
      rw [hassoc] at hrest
      refine ⟨fuel + 1, ?_⟩
      simp only [loop, hbody, select, hcb]
      rwa [← hnext]
    · refine ⟨1, ?_⟩
      simp only [loop, hbody, select, hcb]

/-- On every well-formed list the function returns, reads inside the list, and
selects among the names in order. -/
theorem selectNextProtocol_returns (hdecide : c.m_set_alpn_select_decide_cb = none)
    (hnames : ∀ n ∈ names, Framed n) (hlen : (frames names).length < 2 ^ 32) :
    Returns (c.selectNextProtocol (frames names) (frames names).length) (some (c.select 0 names)) := by
  obtain ⟨fuel, hloop⟩ := loop_selectBody (c := c) [] names hnames hlen
  refine ⟨fuel, ?_⟩
  simp only [selectNextProtocol, hdecide]
  exact hloop

theorem selectNextProtocol_steady (c : SSLContextCreator) (input : List UInt8) (inlen : Nat) :
    Steady (c.selectNextProtocol input inlen) := by
  unfold selectNextProtocol
  split
  · exact steady_const _
  · exact loop_steady _ 0

theorem first_of_select {i : Nat} (h : (c.select i names).ret = 0) :
    ∃ pre name, c.FirstSupported names pre name true := by
  induction names generalizing i with
  | nil => simp [select] at h
  | cons name names ih =>
    rcases hcb : c.m_protocbs name with _ | _ | bret
    · simp [select, hcb] at h
    · simp only [select, hcb] at h
      obtain ⟨pre, name', ⟨post, rfl⟩, hpre, hname'⟩ := ih h
      refine ⟨name :: pre, name', ⟨post, rfl⟩, ?_, hname'⟩
      exact List.forall_mem_cons.mpr ⟨by rw [hcb]; rfl, hpre⟩
    · cases bret with
      | false => simp [select, hcb] at h
      | true => exact ⟨[], name, ⟨names, rfl⟩, nofun, by rw [hcb]; rfl⟩

theorem select_first {i : Nat} {bret : Bool} (h : c.FirstSupported names pre name bret)
    (hpre : ∀ n ∈ pre, c.m_protocbs n ≠ none) :
    c.select i names =
      if bret then ⟨0, some (i + (frames pre).length + 1), .ofNat name.length⟩ else ⟨-2, none, 0⟩ := by
  obtain ⟨⟨post, rfl⟩, hempty, hname⟩ := h
  induction pre generalizing i with
  | nil =>
    have hcb : c.m_protocbs name = some (some bret) := Option.join_eq_some_iff.mp hname
    simp [select, hcb]
  | cons n pre ih =>
    have hcb : c.m_protocbs n = some none :=
      (Option.join_eq_none_iff.mp (hempty n (.head _))).resolve_left (hpre n (.head _))
    have hrest := ih (i := i + (n.length + 1)) (fun x hx => hpre x (.tail _ hx)) fun x hx => hempty x (.tail _ hx)
    rw [List.cons_append]
    simp only [select, hcb, hrest, frames_cons, List.length_append, length_frame, Nat.add_assoc]

/-- The walk ends at the first unregistered name, whatever stands behind it. -/
theorem select_unregistered {i : Nat} (hempty : ∀ n ∈ pre, (c.m_protocbs n).join = none)
    (hmem : name ∈ pre) (hname : c.m_protocbs name = none) (post : List (List UInt8)) :
    c.select i (pre ++ post) = ⟨-3, none, 0⟩ := by
  induction pre generalizing i with
  | nil => cases hmem
  | cons n pre ih =>
    rcases Option.join_eq_none_iff.mp (hempty n (.head _)) with hcb | hcb
    · simp [select, hcb]
    · have hmem' : name ∈ pre := (List.mem_cons.mp hmem).resolve_left (by rintro rfl; simp [hname] at hcb)
      simp only [List.cons_append, select, hcb]
      exact ih (fun x hx => hempty x (.tail _ hx)) hmem'

theorem intersects_select_iff (hnames : ∀ n ∈ names, Framed n) :
    c.Intersects names (c.select 0 names) ↔ c.RegisteredUpToSelected names := by
  constructor
  · intro h pre name hfirst n hn hcb
    have hret := h.ret_zero.mpr ⟨pre, name, hfirst⟩
    obtain ⟨⟨post, rfl⟩, hempty, -⟩ := hfirst
    rw [select_unregistered hempty hn hcb] at hret
    exact absurd hret (by decide)
  · intro h
    have hselect : ∀ pre name, c.FirstSupported names pre name true →
        c.select 0 names = ⟨0, some ((frames pre).length + 1), .ofNat name.length⟩ := by
      intro pre name hfirst
      rw [select_first hfirst (h pre name hfirst), if_pos rfl, Nat.zero_add]
    refine ⟨⟨first_of_select, ?_⟩, ?_⟩
    · rintro ⟨pre, name, hfirst⟩
      rw [hselect pre name hfirst]
    · intro _ pre name hfirst
      rw [hselect pre name hfirst]
      obtain ⟨⟨post, rfl⟩, -⟩ := hfirst
      exact ⟨rfl, (hnames name (by simp)).toNat_length⟩

end

/-- Whatever is registered, on every well-formed list the function returns without
a read outside it, and the first supported name decides if and only if, when it is
accepted, no unregistered name stands before it. -/
theorem selectNextProtocol_intersects_iff (c : SSLContextCreator)
    (hdecide : c.m_set_alpn_select_decide_cb = none) (names : List (List UInt8))
    (hnames : ∀ n ∈ names, Framed n) (hlen : (frames names).length < 2 ^ 32) :
    ∃ s, Returns (c.selectNextProtocol (frames names) (frames names).length) (some s) ∧
      (c.Intersects names s ↔ c.RegisteredUpToSelected names) :=
  ⟨_, selectNextProtocol_returns hdecide hnames hlen, intersects_select_iff hnames⟩

theorem selectNextProtocol_intersects_iff_offered : ∃ server client : SSLContextCreator, ∃ s,
    client.m_next_proto_list = frames [[102, 116, 112], [104, 50]] ∧
      server.m_protocbs [102, 116, 112] = some none ∧ server.m_protocbs [104, 50] = some (some true) ∧
      Returns (server.selectNextProtocol client.m_next_proto_list 7) (some s) ∧
      server.Intersects [[102, 116, 112], [104, 50]] s ∧ s.ret = 0 := by
  let server := (SSLContextCreator.new 0).setSupportedProtoForServer
    [⟨[104, 50], some true⟩, ⟨[102, 116, 112], none⟩]
  let client := (SSLContextCreator.new 0).setSupportedProtoForClient [⟨[102, 116, 112], none⟩, ⟨[104, 50], none⟩]
  obtain ⟨s, hreturns, hiff⟩ := selectNextProtocol_intersects_iff server rfl [[102, 116, 112], [104, 50]]
    (by decide) (by decide)
  have hregistered : ∀ n ∈ [[102, 116, 112], [104, 50]], server.m_protocbs n ≠ none := by decide
  have hintersects : server.Intersects [[102, 116, 112], [104, 50]] s := by
    refine hiff.mpr fun pre name hfirst n hn => hregistered n ?_
    obtain ⟨⟨post, heq⟩, -⟩ := hfirst
    exact heq ▸ List.mem_append_left _ hn
  have hfirst : server.FirstSupported [[102, 116, 112], [104, 50]] [[102, 116, 112]] [104, 50] true :=
    ⟨⟨[], rfl⟩, by decide, rfl⟩
  exact ⟨server, client, s, rfl, rfl, rfl, hreturns, hintersects, hintersects.ret_zero.mpr ⟨_, _, hfirst⟩⟩

/-- The client offers ftp and h2. The server accepts h2 and does not know ftp; it
selects nothing. -/
theorem selectNextProtocol_stops_at_unsupported : ∃ server client : SSLContextCreator,
    server = (SSLContextCreator.new 0).setSupportedProtoForServer [⟨[104, 50], some true⟩] ∧
      client = (SSLContextCreator.new 0).setSupportedProtoForClient [⟨[102, 116, 112], none⟩, ⟨[104, 50], none⟩] ∧
      client.m_next_proto_list = frames [[102, 116, 112], [104, 50]] ∧
      Returns (server.selectNextProtocol client.m_next_proto_list 7) (some ⟨-3, none, 0⟩) ∧
      ¬∃ s, Returns (server.selectNextProtocol client.m_next_proto_list 7) (some s) ∧
        server.Intersects [[102, 116, 112], [104, 50]] s := by
  let server := (SSLContextCreator.new 0).setSupportedProtoForServer [⟨[104, 50], some true⟩]
  let client := (SSLContextCreator.new 0).setSupportedProtoForClient [⟨[102, 116, 112], none⟩, ⟨[104, 50], none⟩]
  have hreturns : Returns (server.selectNextProtocol client.m_next_proto_list 7) (some ⟨-3, none, 0⟩) := ⟨1, rfl⟩
  refine ⟨server, client, rfl, rfl, rfl, hreturns, ?_⟩
  rintro ⟨s, hs, hintersects⟩
  have hfirst : server.FirstSupported [[102, 116, 112], [104, 50]] [[102, 116, 112]] [104, 50] true :=
    ⟨⟨[], rfl⟩, by decide, rfl⟩
  have hret := hintersects.ret_zero.mpr ⟨_, _, hfirst⟩
  rw [← Option.some.inj (hreturns.unique (selectNextProtocol_steady server _ _) hs)] at hret
  exact absurd hret (by decide)

end Andren.Base
