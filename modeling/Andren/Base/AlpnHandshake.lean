import Andren.Base.AlpnWire
import Andren.Base.ArchiveDecompress

/-!
# Agreeing on a protocol

`startCreate` makes a context for a server, whose callback selects a protocol, or for a client,
which sends its list. OpenSSL checks the list, calls the callback in a handshake of the two and tells
the client what was selected.

They agree on the first name of the client's list that the server has registered with a callback,
if that returns true and every name before it is registered too, and otherwise on no protocol
(`alpn_agrees`). The names of the list are those that fit a byte; of a longer one it has as many of
the first bytes as its length is modulo 256, and a list with an empty one gets no context.
-/

namespace Andren.Base

open Machines

structure SSLContextConfig extends SSLContextCreator where
  m_primaryKeyFile : Bytes
  m_certificateFile : Bytes
  m_set_alpn_select_cb : Option AlpnSelectCb

/-- A context; `alpn_select` tells whether the callback of a creator is set, `alpn_protos` is the list
that a client sends. -/
structure SSLCtx where
  ctx : Nat
  alpn_select : Bool
  alpn_protos : Bytes
  deriving DecidableEq

structure SSLCtxAnswers where
  SSL_CTX_new : Option Nat
  SSL_CTX_set1_curves_list : Int
  SSL_CTX_use_PrivateKey_file : Bytes → Int
  SSL_CTX_use_certificate_chain_file : Bytes → Int
  SSL_CTX_set_alpn_protos : Bytes → Int

/-- A list is set only when it is one of names that are not empty, or empty itself. -/
def SSLCtxAnswers.Checks (o : SSLCtxAnswers) : Prop :=
  ∀ protos, o.SSL_CTX_set_alpn_protos protos = 0 → (unframe protos.length protos).isSome

/-- What a callback answers to a client's list: its result, and what it has selected. -/
abbrev AlpnCallback := Bytes → Int × Bytes → Prop

/-- `shake callback protos selected`: a client that offers `protos` has ended a handshake with a server
that has this callback, and its `SSL_get0_alpn_selected` gives `selected`. -/
abbrev Handshake := Option AlpnCallback → Bytes → Option Bytes → Prop

def SSL_TLSEXT_ERR_OK : Int := 0

def SSL_TLSEXT_ERR_NOACK : Int := 3

/-- OpenSSL calls the callback with the list, if there are both, and passes on what it selects when its
result is `SSL_TLSEXT_ERR_OK`. -/
structure Handshake.Lawful (shake : Handshake) : Prop where
  unasked : shake none protos selected → selected = none
  unoffered : shake callback [] selected → selected = none
  asked : shake (some callback) protos selected → protos ≠ [] → ∃ answer, callback protos answer ∧
    selected = if answer.1 = SSL_TLSEXT_ERR_OK then some answer.2 else none

namespace SSLContextConfig

def alpnForServer (ctx : SSLCtx) : SSLCtx × Bool := ({ ctx with alpn_select := true }, true)

/-- The size is passed as an `unsigned int`. -/
def alpnForClient (c : SSLContextConfig) (o : SSLCtxAnswers) (ctx : SSLCtx) : SSLCtx × Bool :=
  let protos := c.m_next_proto_list.take (c.m_next_proto_list.length % 2 ^ 32)
  if o.SSL_CTX_set_alpn_protos protos = 0 then ({ ctx with alpn_protos := protos }, true) else (ctx, false)

def alpn (c : SSLContextConfig) (o : SSLCtxAnswers) (ctx : SSLCtx) : SSLCtx × Bool :=
  if c.m_endType = 1 then alpnForServer ctx
  else if c.m_endType = 2 then c.alpnForClient o ctx
  else (ctx, false)

def startCreate (c : SSLContextConfig) (o : SSLCtxAnswers) (method : Int) : (Int × Option SSLCtx) × List Nat :=
  if method = 1 ∨ method = 2 then
    match o.SSL_CTX_new with
    | none => ((-3, none), [])
    | some ctx =>
      if o.SSL_CTX_set1_curves_list ≠ 1 then ((-4, none), [ctx])
      else if o.SSL_CTX_use_PrivateKey_file (c_str c.m_primaryKeyFile) ≠ 1 then ((-5, none), [ctx])
      else if o.SSL_CTX_use_certificate_chain_file (c_str c.m_certificateFile) ≠ 1 then ((-6, none), [ctx])
      else
        match c.alpn o ⟨ctx, false, []⟩ with
        | (made, true) => ((0, some made), [])
        | (_, false) => ((-7, none), [ctx])
  else ((-2, none), [])

/-- What a callback that returns `rv` answers. What it selects lies in the client's list; a read outside of
that has no result. -/
def answer (input : Bytes) (rv : Selected) : Option (Int × Bytes) :=
  if rv.ret = SSL_TLSEXT_ERR_OK then (rv.out.bind fun out => slice input out rv.outlen.toNat).map (rv.ret, ·)
  else some (rv.ret, [])

def alpn_select_cb (pself : SSLContextConfig) (input : Bytes) (fuel : Nat) : Option (Option (Int × Bytes)) :=
  match pself.m_set_alpn_select_cb with
  | none => (pself.selectNextProtocol input input.length fuel).map (Option.bind · fun (rv : Selected) =>
    answer input { rv with ret := if rv.ret ≠ 0 then SSL_TLSEXT_ERR_NOACK else SSL_TLSEXT_ERR_OK })
  | some cb => some (answer input (cb input input.length))

def callback (pself : SSLContextConfig) (server : SSLCtx) : Option AlpnCallback :=
  if server.alpn_select then some fun input answer => Returns (pself.alpn_select_cb input) (some answer) else none

end SSLContextConfig

def selectedProtocolForClient (selected : Option Bytes) : Bytes := selected.getD []

-- ---------------------------------------------------------------------------
-- The contexts
-- ---------------------------------------------------------------------------

open SSLContextCreator

section

variable {server client : SSLContextConfig} {names : List Bytes}

theorem alpn_ctx {c : SSLContextConfig} {ctx : SSLCtx} (h : c.alpn o ctx = (made, bret)) : made.ctx = ctx.ctx := by
  simp only [SSLContextConfig.alpn, SSLContextConfig.alpnForServer, SSLContextConfig.alpnForClient] at h
  split at h
  · cases h
    rfl
  · split at h
    · split at h <;> cases h <;> rfl
    · cases h
      rfl

/-- A context that is made is returned or freed, and it is returned just with 0. -/
theorem startCreate_frees (c : SSLContextConfig) (o : SSLCtxAnswers) (method : Int) :
    ((c.startCreate o method).1.1 = 0 ↔ (c.startCreate o method).1.2.isSome) ∧
      (c.startCreate o method).1.2.toList.map SSLCtx.ctx ++ (c.startCreate o method).2 =
        if method = 1 ∨ method = 2 then o.SSL_CTX_new.toList else [] := by
  unfold SSLContextConfig.startCreate
  split
  · split
    next h => simp [h]
    next ctx h =>
      rw [h]
      split
      · simp
      · split
        · simp
        · split
          · simp
          · split
            next halpn => simp [alpn_ctx halpn]
            next halpn => simp
  · simp

theorem startCreate_returns {c : SSLContextConfig} (h : (c.startCreate o method).1 = (0, some ctx)) :
    ∃ k, c.alpn o ⟨k, false, []⟩ = (ctx, true) := by
  unfold SSLContextConfig.startCreate at h
  split at h
  · split at h
    · cases h
    next k _ =>
      refine ⟨k, ?_⟩
      split at h
      · cases h
      · split at h
        · cases h
        · split at h
          · cases h
          · split at h
            next halpn =>
              cases h
              exact halpn
            · cases h
  · cases h

theorem startCreate_server {c : SSLContextConfig} (h : (c.startCreate o method).1 = (0, some ctx))
    (hend : c.m_endType = 1) : ctx.alpn_select = true := by
  obtain ⟨k, halpn⟩ := startCreate_returns h
  rw [SSLContextConfig.alpn, if_pos hend] at halpn
  cases halpn
  rfl

theorem startCreate_client {c : SSLContextConfig} (h : (c.startCreate o method).1 = (0, some ctx))
    (hend : c.m_endType = 2) :
    ctx.alpn_protos = c.m_next_proto_list.take (c.m_next_proto_list.length % 2 ^ 32) ∧
      o.SSL_CTX_set_alpn_protos ctx.alpn_protos = 0 := by
  obtain ⟨k, halpn⟩ := startCreate_returns h
  rw [SSLContextConfig.alpn, if_neg (by rw [hend]; decide), if_pos hend, SSLContextConfig.alpnForClient] at halpn
  split at halpn
  next hset =>
    cases halpn
    exact ⟨rfl, hset⟩
  · cases halpn

theorem framed_of_set {o : SSLCtxAnswers} (ho : o.Checks) (hshort : ∀ n ∈ names, n.length < 256)
    (hset : o.SSL_CTX_set_alpn_protos (frames names) = 0) : ∀ n ∈ names, Framed n := by
  have hsome := ho _ hset
  rw [unframe_frames hshort (Nat.le_refl _)] at hsome
  split at hsome
  next h => exact h
  · cases hsome

-- ---------------------------------------------------------------------------
-- The handshake
-- ---------------------------------------------------------------------------

/-- The server selects `name`: the first supported one, and those before it are registered. -/
def Selects (c : SSLContextCreator) (names : List Bytes) (name : Bytes) : Prop :=
  ∃ pre, c.FirstSupported names pre name true ∧ ∀ n ∈ pre, c.m_protocbs n ≠ none

theorem alpn_select_cb_steady (c : SSLContextConfig) (input : Bytes) : Steady (c.alpn_select_cb input) := by
  intro fuel fuel' answer hle h
  unfold SSLContextConfig.alpn_select_cb at h ⊢
  cases hcb : c.m_set_alpn_select_cb with
  | none =>
    simp only [hcb] at h ⊢
    obtain ⟨rv, hrv, hanswer⟩ := Option.map_eq_some_iff.mp h
    exact Option.map_eq_some_iff.mpr ⟨rv, selectNextProtocol_steady _ _ _ _ _ _ hle hrv, hanswer⟩
  | some cb =>
    rw [hcb] at h
    exact h

theorem alpn_select_cb_selects {c : SSLContextConfig} (hselect : c.m_set_alpn_select_cb = none)
    (hdecide : c.m_set_alpn_select_decide_cb = none) (hnames : ∀ n ∈ names, Framed n)
    (hlen : (frames names).length < 2 ^ 32) (h : Selects c.toSSLContextCreator names name) :
    Returns (c.alpn_select_cb (frames names)) (some (SSL_TLSEXT_ERR_OK, name)) := by
  obtain ⟨pre, hfirst, hpre⟩ := h
  obtain ⟨fuel, hreturns⟩ := selectNextProtocol_returns hdecide hnames hlen
  rw [select_first hfirst hpre, Nat.zero_add] at hreturns
  obtain ⟨⟨post, rfl⟩, -⟩ := hfirst
  have hname : Framed name := hnames name (by simp)
  have hanswer : SSLContextConfig.answer (frames (pre ++ name :: post))
      ⟨SSL_TLSEXT_ERR_OK, some ((frames pre).length + 1), .ofNat name.length⟩ = some (SSL_TLSEXT_ERR_OK, name) := by
    rw [SSLContextConfig.answer, if_pos rfl, Option.bind_some, hname.toNat_length, slice_frames]
    rfl
  refine ⟨fuel, ?_⟩
  simp only [SSLContextConfig.alpn_select_cb, hselect, hreturns]
  exact congrArg some hanswer

theorem alpn_select_cb_refuses {c : SSLContextConfig} (hselect : c.m_set_alpn_select_cb = none)
    (hdecide : c.m_set_alpn_select_decide_cb = none) (hnames : ∀ n ∈ names, Framed n)
    (hlen : (frames names).length < 2 ^ 32) (h : (c.select 0 names).ret ≠ 0) :
    Returns (c.alpn_select_cb (frames names)) (some (SSL_TLSEXT_ERR_NOACK, [])) := by
  obtain ⟨fuel, hreturns⟩ := selectNextProtocol_returns hdecide hnames hlen
  refine ⟨fuel, ?_⟩
  simp [SSLContextConfig.alpn_select_cb, SSLContextConfig.answer, hselect, hreturns, h, SSL_TLSEXT_ERR_OK,
    SSL_TLSEXT_ERR_NOACK]

/-- An accepted name with an unregistered one before it is not reached. -/
theorem selects_of_ret {c : SSLContextCreator} (h : (c.select 0 names).ret = 0) : ∃ name, Selects c names name := by
  obtain ⟨pre, name, hfirst⟩ := first_of_select h
  refine ⟨name, pre, hfirst, fun n hn hcb => ?_⟩
  obtain ⟨⟨post, rfl⟩, hempty, -⟩ := hfirst
  rw [select_unregistered hempty hn hcb] at h
  cases h

theorem ret_of_selects {c : SSLContextCreator} (h : Selects c names name) : (c.select 0 names).ret = 0 := by
  obtain ⟨pre, hfirst, hpre⟩ := h
  rw [select_first hfirst hpre, if_pos rfl]

/-- The callback answers to every list of names, and with one of them just when that is selected. -/
theorem alpn_select_cb_iff {c : SSLContextConfig} (hselect : c.m_set_alpn_select_cb = none)
    (hdecide : c.m_set_alpn_select_decide_cb = none) (hnames : ∀ n ∈ names, Framed n)
    (hlen : (frames names).length < 2 ^ 32) : ∃ answer, Returns (c.alpn_select_cb (frames names)) (some answer) ∧
      ∀ name, name ≠ [] → (answer.1 = SSL_TLSEXT_ERR_OK ∧ answer.2 = name ↔
        Selects c.toSSLContextCreator names name) := by
  by_cases hret : (c.select 0 names).ret = 0
  · obtain ⟨p, hp⟩ := selects_of_ret hret
    have hanswer := alpn_select_cb_selects hselect hdecide hnames hlen hp
    refine ⟨_, hanswer, fun name _ => ⟨?_, fun h => ?_⟩⟩
    · rintro ⟨-, rfl⟩
      exact hp
    · have hsame := Returns.unique (alpn_select_cb_steady c _) hanswer
        (alpn_select_cb_selects hselect hdecide hnames hlen h)
      cases hsame
      exact ⟨rfl, rfl⟩
  · refine ⟨_, alpn_select_cb_refuses hselect hdecide hnames hlen hret, fun name _ => iff_of_false ?_ fun h => ?_⟩
    · rintro ⟨hok, -⟩
      exact absurd hok (by decide)
    · exact hret (ret_of_selects h)

end

/-- In every handshake of a server and a client made by `startCreate`. -/
theorem alpn_agrees {shake : Handshake} (hshake : shake.Lawful) {server client : SSLContextConfig}
    (hdecide : server.m_set_alpn_select_decide_cb = none) (hselect : server.m_set_alpn_select_cb = none)
    (hserver : server.m_endType = 1)
    (hclient : client.toSSLContextCreator = (SSLContextCreator.new endType).setSupportedProtoForClient protoList)
    (hchecks : o'.Checks) (hsctx : (server.startCreate o 1).1 = (0, some sctx))
    (hcctx : (client.startCreate o' 2).1 = (0, some cctx)) (hlen : client.m_next_proto_list.length < 2 ^ 16)
    (h : shake (server.callback sctx) cctx.alpn_protos selected) :
    ∀ name, name ≠ [] → (selectedProtocolForClient selected = name ↔
      Selects server.toSSLContextCreator (protoList.map fun handler => cut handler.protocol) name) := by
  have hend : client.m_endType = 2 := by rw [hclient]; rfl
  have hlist : client.m_next_proto_list = frames (protoList.map fun handler => cut handler.protocol) := by
    rw [hclient]
    exact m_next_proto_list_cut _ _ _
  have hshort : ∀ n ∈ protoList.map fun handler => cut handler.protocol, n.length < 256 := by
    intro n hn
    obtain ⟨handler, -, rfl⟩ := List.mem_map.mp hn
    rw [length_cut]
    exact Nat.mod_lt _ (by decide)
  obtain ⟨hprotos, hset⟩ := startCreate_client hcctx hend
  rw [Nat.mod_eq_of_lt (by omega), List.take_length, hlist] at hprotos
  rw [hprotos] at hset h
  rw [hlist] at hlen
  have hnames := framed_of_set hchecks hshort hset
  rw [SSLContextConfig.callback, if_pos (startCreate_server hsctx hserver)] at h
  intro name hne
  by_cases hnil : frames (protoList.map fun handler => cut handler.protocol) = []
  · rw [hnil] at h
    rw [hshake.unoffered h, frames_eq_nil hnil]
    refine iff_of_false (fun heq => hne heq.symm) ?_
    rintro ⟨pre, ⟨⟨post, heq⟩, -⟩, -⟩
    simp at heq
  · obtain ⟨answer, hanswer, rfl⟩ := hshake.asked h hnil
    obtain ⟨answer', hanswer', hiff⟩ := alpn_select_cb_iff hselect hdecide hnames (by omega)
    cases Returns.unique (alpn_select_cb_steady server _) hanswer hanswer'
    rw [← hiff name hne]
    split
    next hok => exact ⟨fun heq => ⟨hok, heq⟩, fun heq => heq.2⟩
    next hno => exact iff_of_false (fun heq => hne heq.symm) fun heq => hno heq.1

def shakes : Handshake
  | some callback, protos, selected => protos = [] ∧ selected = none ∨ protos ≠ [] ∧ ∃ answer, callback protos answer ∧
      selected = if answer.1 = SSL_TLSEXT_ERR_OK then some answer.2 else none
  | none, _, selected => selected = none

theorem shakes_lawful : shakes.Lawful where
  unasked h := h
  unoffered {callback _} h := by
    cases callback with
    | none => exact h
    | some callback => exact (h.resolve_right fun hsome => hsome.1 rfl).2
  asked h hne := (h.resolve_left fun hnil => hne hnil.1).2

def answers : SSLCtxAnswers := ⟨some 7, 1, fun _ => 1, fun _ => 1, fun protos =>
  if (unframe protos.length protos).isSome then 0 else 1⟩

theorem answers_checks : answers.Checks := by
  intro protos h
  by_contra hnone
  exact absurd ((if_neg hnone).symm.trans h) (by decide)

theorem alpn_agrees_h2 : ∃ server sctx cctx selected, shakes (SSLContextConfig.callback server sctx) cctx selected ∧
    selectedProtocolForClient selected = [104, 50] := by
  let server : SSLContextConfig := ⟨(SSLContextCreator.new 0).setSupportedProtoForServer
    [⟨[104, 50], some true⟩, ⟨[102, 116, 112], none⟩], [], [], none⟩
  let client : SSLContextConfig := ⟨(SSLContextCreator.new 0).setSupportedProtoForClient
    [⟨[102, 116, 112], none⟩, ⟨[104, 50], none⟩], [], [], none⟩
  let sctx : SSLCtx := ⟨7, true, []⟩
  let cctx : SSLCtx := ⟨7, false, frames [[102, 116, 112], [104, 50]]⟩
  have hsctx : (server.startCreate answers 1).1 = (0, some sctx) := rfl
  have hcctx : (client.startCreate answers 2).1 = (0, some cctx) := rfl
  have hselects : Selects server.toSSLContextCreator [[102, 116, 112], [104, 50]] [104, 50] :=
    ⟨[[102, 116, 112]], ⟨⟨[], rfl⟩, by decide, rfl⟩, by decide⟩
  have hshake : shakes (server.callback sctx) cctx.alpn_protos (some [104, 50]) :=
    .inr ⟨by decide, (0, [104, 50]), ⟨9, rfl⟩, rfl⟩
  have hiff := alpn_agrees shakes_lawful rfl rfl rfl rfl answers_checks hsctx hcctx (by decide) hshake
    [104, 50] (by decide)
  exact ⟨server, sctx, _, _, hshake, hiff.mpr hselects⟩

end Andren.Base
