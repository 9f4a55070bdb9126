import Andren.Network.Polling
import Andren.Network.SSLStream

/-!
# A stream on its poller

`listenReadEvent` registers a callback for the stream's descriptor, and the
callback cancels it when the stream ends. Here the stream listens once, on a
poller that other code uses too, and its callback runs only while the poller's
table holds it.

A stream of either class closes once and is silent afterwards. A `SockStream`
also closes when an event finds no data, since `tryRead` returns the number of
bytes and its caller takes 0 for the end of the connection.
-/

namespace Andren.Network

open Machines

inductive Handler
  | stream
  | other

structure Listening where
  poller : RePoller Handler
  listens : Bool
  alive : Bool
  m_onRead : Bool
  m_onClose : Bool

inductive ListenAct (ι : Type)
  | listenReadEvent
  /-- Other code calls the poller, also from within the stream's callbacks. -/
  | call (c : PollerCall Handler)
  | setOnRead
  | setOnClose
  | drop
  /-- The poller calls what it holds for the descriptor. -/
  | ready (events : Events) (input : ι)

inductive ListenEv
  | stream (e : StreamEv)
  /-- The callback cancels the descriptor. -/
  | cancled

def PollerCall.installs : PollerCall Handler → Bool
  | .setReadyCallback _ (some .stream) => true
  | _ => false

namespace Listening

def stream (s : Listening) : Stream := ⟨s.alive, true, s.m_onRead, s.m_onClose⟩

/-- The stream's callback did what leads from `s.stream` to `t`. -/
def after (s : Listening) (fd : Int) (t : Stream) (es : List StreamEv) : Listening × List ListenEv :=
  if t.registered then (s, es.map .stream)
  else ({ s with poller := s.poller.cancle fd }, es.map .stream ++ [.cancled])

end Listening

/-- A stream on descriptor `fd` that starts to listen at most once. -/
def listening (fd : Int) (drain : ι → Option (List RecvResult × Outcome)) :
    Machine Listening (ListenAct ι) ListenEv where
  init := ⟨⟨∅, ∅, false⟩, false, true, false, false⟩
  step s
    | .listenReadEvent =>
      if s.listens then none
      else some ({ s with poller := (s.poller.setReadyCallback fd (some .stream)).1, listens := true }, [])
    | .call c => if c.installs then none else some ({ s with poller := (s.poller.perform c).1 }, [])
    | .setOnRead => some ({ s with m_onRead := true }, [])
    | .setOnClose => some ({ s with m_onClose := true }, [])
    | .drop => some ({ s with alive := false }, [])
    | .ready events input => match s.poller.m_callbacks[fd]? with
      | some .stream => do
        let (t, es) ← (Network.stream drain).step s.stream (.ready events input)
        pure (s.after fd t es)
      | _ => none

/-- What one event of an `SSLStream` meets: the state of the stream, the results
of `recv`, what `SSL_pending` returns and `SSL_read` writes, and the error codes. -/
structure SSLEvent where
  data : SSLStream
  recvs : List RecvResult
  pending : Int
  plain : List UInt8
  errno : Int
  errcode : Nat

namespace SSLEvent

/-- `aSSLSocketIO::read`: the result of its second `SSL_read` is not looked at. -/
def read (e : SSLEvent) : Int × List UInt8 :=
  if e.pending ≤ 0 then (-1, [])
  else (e.pending, (e.plain ++ List.replicate e.pending.toNat 0).take e.pending.toNat)

def drain (e : SSLEvent) : Option (List RecvResult × Outcome) :=
  e.data.drain ⟨e.recvs, e.read, e.errno, e.errcode⟩

end SSLEvent

-- ---------------------------------------------------------------------------
-- The entry of the stream
-- ---------------------------------------------------------------------------

section

variable {fd : Int} {drain : ι → Option (List RecvResult × Outcome)}

def Listening.Registered (s : Listening) (fd : Int) : Prop := s.poller.m_callbacks[fd]? = some .stream

/-- The stream listens, or it may still begin to. -/
def Listening.Open (s : Listening) (fd : Int) : Prop := s.Registered fd ∨ s.listens = false

theorem not_registered_cancle {p : RePoller Handler} : (p.cancle fd).m_callbacks[fd]? ≠ some .stream := by
  simp [RePoller.cancle]

theorem registered_of_perform {p : RePoller Handler} (hc : c.installs = false)
    (h : (p.perform c).1.m_callbacks[fd]? = some .stream) : p.m_callbacks[fd]? = some .stream := by
  have hp := performs p c
  generalize (p.perform c).1 = p', (p.perform c).2 = es at h hp
  cases hp with
  | @registered fd' cb =>
    rw [Std.TreeMap.getElem?_insert] at h
    split at h
    · cases h
      cases hc
    · exact h
  | cancled =>
    rw [Std.TreeMap.getElem?_erase] at h
    split at h
    · cases h
    · exact h
  | _ => exact h

inductive Listens (fd : Int) (drain : ι → Option (List RecvResult × Outcome)) (s : Listening) :
    Listening → List ListenEv → Prop
  | other : (s'.Open fd → s.Open fd) → Listens fd drain s s' []
  | read : s.Open fd → drain input = some (recvs, .read key value) → Listens fd drain s s
      (.stream (.received recvs) :: if s.m_onRead then [.stream (.onRead key value)] else [])
  | close : s.Open fd → ¬s'.Open fd → drain input = some (recvs, .close) → Listens fd drain s s'
      (.stream (.received recvs) :: (if s.m_onClose then [.stream .onClose] else []) ++ [.cancled])
  | ignore : s.Open fd → drain input = some (recvs, .ignore) →
      Listens fd drain s s [.stream (.received recvs)]

theorem Woken.listens {s : Listening} (h : Woken drain s.stream t es) (hreg : s.Registered fd)
    (hlistens : s.listens = true) : Listens fd drain s (s.after fd t es).1 (s.after fd t es).2 := by
  cases h with
  | idle => exact .other id
  | read hout =>
    have h := Listens.read (s := s) (.inl hreg) hout
    unfold Listening.after Listening.stream
    cases hon : s.m_onRead <;> simpa [hon] using h
  | close hout =>
    have hclosed : ¬Listening.Open { s with poller := s.poller.cancle fd } fd := by
      rintro (hreg | hnot)
      · exact not_registered_cancle hreg
      · cases hlistens.symm.trans hnot
    have h := Listens.close (.inl hreg) hclosed hout
    unfold Listening.after Listening.stream
    cases hon : s.m_onClose <;> simpa [hon] using h
  | ignore hout => exact .ignore (.inl hreg) hout

theorem step_listens (h : s.Registered fd → s.listens = true)
    (hs : (listening fd drain).step s a = some (s', es)) :
    Listens fd drain s s' es ∧ (s'.Registered fd → s'.listens = true) := by
  cases a with
  | listenReadEvent =>
    obtain ⟨hnot, hs⟩ := Option.ite_none_left_eq_some.mp hs
    cases hs
    exact ⟨.other fun _ => .inr (by simpa using hnot), fun _ => rfl⟩
  | call c =>
    obtain ⟨hc, hs⟩ := Option.ite_none_left_eq_some.mp hs
    cases hs
    have hc : c.installs = false := by simpa using hc
    exact ⟨.other (Or.imp_left (registered_of_perform hc)), fun h' => h (registered_of_perform hc h')⟩
  | ready events input =>
    simp only [listening] at hs
    split at hs
    · rename_i hreg
      obtain ⟨⟨t, ses⟩, hstep, hs⟩ := Option.bind_eq_some_iff.mp hs
      have hlistens := (ready_woken hstep).2.listens hreg (h hreg)
      have hafter : (s.after fd t ses).1.listens = s.listens := by
        unfold Listening.after
        split <;> rfl
      rw [Option.some.inj hs] at hlistens hafter
      exact ⟨hlistens, fun _ => hafter.trans (h hreg)⟩
    · cases hs
  | _ =>
    cases hs
    exact ⟨.other id, h⟩

theorem listening_invariant {I : List ListenEv → Listening → Prop} (hinit : I [] (listening fd drain).init)
    (hstep : ∀ tr s s' es, I tr s → Listens fd drain s s' es → I (tr ++ es) s')
    (h : (listening fd drain).Run tr s) : I tr s := by
  have hinit' : ¬(listening fd drain).init.Registered fd := by simp [Listening.Registered, listening]
  refine (h.invariant (I := fun tr s => I tr s ∧ (s.Registered fd → s.listens = true))
    ⟨hinit, fun hreg => absurd hreg hinit'⟩ ?_).1
  rintro tr s a s' es - ⟨ih, hreg⟩ - hs
  obtain ⟨hlistens, hreg'⟩ := step_listens hreg hs
  exact ⟨hstep _ _ _ _ ih hlistens, hreg'⟩

end

-- ---------------------------------------------------------------------------
-- One close
-- ---------------------------------------------------------------------------

structure ClosesOnce (tr : List ListenEv) : Prop where
  once : ∀ t t', tr = t ++ .stream .onClose :: t' → .stream .onClose ∉ t'
  silent : ∀ t t', tr = t ++ .stream .onClose :: t' → ∀ ret value, .stream (.onRead ret value) ∉ t'
  nonempty : ∀ ret value, .stream (.onRead ret value) ∈ tr → value ≠ []

def ListenEv.Tells : ListenEv → Prop
  | .stream .onClose | .stream (.onRead ..) => True
  | _ => False

def Reads (drain : ι → Option (List RecvResult × Outcome)) : Prop :=
  ∀ input recvs key value, drain input = some (recvs, .read key value) → value ≠ []

theorem sockStream_reads : Reads SockStream.drain := by
  intro input recvs key value h
  unfold SockStream.drain at h
  split at h
  · rename_i key value hread
    unfold SockStream.outcome at h
    split at h
    · cases h
    · rename_i hkey
      cases h
      rintro rfl
      rcases tryRead_eq hread with ⟨-, -, rfl⟩ | ⟨-, -, rfl⟩ <;> exact hkey le_rfl
  · cases h

theorem sslRead_nonempty {e : SSLEvent} (h : 0 < e.read.1) : e.read.2 ≠ [] := by
  unfold SSLEvent.read at h ⊢
  split at h
  · cases h
  · rename_i hpending
    have hlen : e.pending.toNat ≠ 0 := by omega
    rw [if_neg hpending]
    simp [hlen]

theorem sslStream_reads : Reads SSLEvent.drain := by
  intro e recvs key value h
  unfold SSLEvent.drain SSLStream.drain at h
  split at h
  · rename_i key value hread
    unfold SSLStream.outcome at h
    split at h
    · cases h
    · rename_i hzero
      split at h
      · split at h <;> cases h
      · rename_i hneg
        cases h
        have hkey : 0 < key := by omega
        unfold SSLStream.realRead at hread
        split at hread
        · rintro rfl
          rcases tryRead_eq hread with ⟨-, -, rfl⟩ | ⟨-, -, rfl⟩ <;> exact hzero rfl
        · split at hread <;> simp only [Option.some.injEq, Prod.mk.injEq] at hread <;>
            obtain ⟨rfl, rfl, -⟩ := hread
          · cases hkey
          · exact sslRead_nonempty hkey
  · cases h

section

variable {fd : Int} {drain : ι → Option (List RecvResult × Outcome)}

structure Told (fd : Int) (tr : List ListenEv) (s : Listening) : Prop where
  opened : s.Open fd → .stream .onClose ∉ tr
  silent : Always (fun t e => e.Tells → .stream .onClose ∉ t) tr
  nonempty : ∀ ret value, .stream (.onRead ret value) ∈ tr → value ≠ []

theorem Told.step (h : Told fd tr s) (hreads : Reads drain) (hs : Listens fd drain s s' es) :
    Told fd (tr ++ es) s' := by
  cases hs with
  | other hopen =>
    rw [List.append_nil]
    exact ⟨fun h' => h.opened (hopen h'), h.silent, h.nonempty⟩
  | @read input recvs key value hopen hout =>
    have hclose := h.opened hopen
    have hvalue := hreads _ _ _ _ hout
    refine ⟨?_, ?_, ?_⟩
    · cases s.m_onRead <;> simp [hclose]
    · rw [always_append]
      refine ⟨h.silent, ?_⟩
      cases s.m_onRead <;> simp [AlwaysFrom, ListenEv.Tells, hclose]
    · intro ret value' hmem
      rcases List.mem_append.mp hmem with hmem | hmem
      · exact h.nonempty ret value' hmem
      · cases hon : s.m_onRead <;> simp [hon] at hmem
        rw [hmem.2]
        exact hvalue
  | @close input recvs _ hopen hclosed hout =>
    have hclose := h.opened hopen
    refine ⟨fun h' => absurd h' hclosed, ?_, ?_⟩
    · rw [always_append]
      refine ⟨h.silent, ?_⟩
      cases s.m_onClose <;> simp [AlwaysFrom, ListenEv.Tells, hclose]
    · intro ret value hmem
      rcases List.mem_append.mp hmem with hmem | hmem
      · exact h.nonempty ret value hmem
      · cases hon : s.m_onClose <;> simp [hon] at hmem
  | ignore hopen hout =>
    refine ⟨fun _ => by simp [h.opened hopen], ?_, ?_⟩
    · rw [always_append]
      exact ⟨h.silent, fun htells => (by cases htells), trivial⟩
    · intro ret value hmem
      rcases List.mem_append.mp hmem with hmem | hmem
      · exact h.nonempty ret value hmem
      · cases List.mem_singleton.mp hmem

theorem listening_told (hreads : Reads drain) (h : (listening fd drain).Run tr s) : Told fd tr s :=
  listening_invariant ⟨nofun, always_nil, nofun⟩ (fun _ _ _ _ ih hs => ih.step hreads hs) h

theorem Told.closesOnce (h : Told fd tr s) : ClosesOnce tr := by
  have hafter {t t'} (htr : tr = t ++ .stream .onClose :: t') {e} (he : e.Tells) : e ∉ t' := by
    intro hmem
    obtain ⟨u, u', rfl⟩ := List.mem_iff_append.mp hmem
    refine h.silent (t ++ .stream .onClose :: u) e u' (by simp [htr]) he ?_
    simp
  exact ⟨fun t t' htr => hafter htr trivial, fun t t' htr ret value => hafter htr trivial, h.nonempty⟩

end

/-- In every run of either class the stream closes at most once, reads nothing
afterwards, and never reads an empty string. -/
theorem streams_close_once (fd : Int) :
    (∀ tr s, (listening fd SockStream.drain).Run tr s → ClosesOnce tr) ∧
      ∀ tr s, (listening fd SSLEvent.drain).Run tr s → ClosesOnce tr :=
  ⟨fun _ _ h => (listening_told sockStream_reads h).closesOnce,
    fun _ _ h => (listening_told sslStream_reads h).closesOnce⟩

theorem streams_close_once_run :
    (∃ tr s, (listening 5 SockStream.drain).Run tr s ∧
      tr = [.stream (.received [.data ⟨[104, 105], by decide⟩, .error 11]), .stream (.onRead 2 [104, 105]),
        .stream (.received [.zero]), .stream .onClose, .cancled] ∧ ClosesOnce tr) ∧
    ∃ tr s, (listening 5 SSLEvent.drain).Run tr s ∧
      tr = [.stream (.received []), .stream (.received []), .stream (.onRead 2 [104, 105]),
        .stream (.received []), .stream .onClose, .cancled] ∧ ClosesOnce tr := by
  have hr : ((listening 5 SockStream.drain).replay ⟨⟨∅, ∅, false⟩, false, true, false, false⟩
      [.setOnRead, .setOnClose, .listenReadEvent,
        .ready 1 [.data ⟨[104, 105], by decide⟩, .error 11], .call (.notifyEvents 5 1),
        .ready 17 [.zero], .call (.notifyEvents 5 1)]).isSome := rfl
  have hr' : ((listening 5 SSLEvent.drain).replay ⟨⟨∅, ∅, false⟩, false, true, false, false⟩
      [.setOnRead, .setOnClose, .listenReadEvent, .ready 1 ⟨⟨true, false, true⟩, [], 0, [], 11, 2⟩,
        .ready 1 ⟨⟨true, false, true⟩, [], 2, [104, 105], 0, 0⟩,
        .ready 1 ⟨⟨true, false, true⟩, [], 0, [], 0, 1⟩]).isSome := rfl
  have hrun := Machine.steps_of_replay (Option.some_get hr).symm
  have hrun' := Machine.steps_of_replay (Option.some_get hr').symm
  obtain ⟨hsock, hssl⟩ := streams_close_once 5
  exact ⟨⟨_, _, hrun, rfl, hsock _ _ hrun⟩, ⟨_, _, hrun', rfl, hssl _ _ hrun'⟩⟩

-- ---------------------------------------------------------------------------
-- Only a disconnect
-- ---------------------------------------------------------------------------

def Dry : List RecvResult → Prop
  | .error errno :: _ => errno = EAGAIN ∨ errno = EWOULDBLOCK
  | _ => False

def ListenEv.Closes (e : ListenEv) : Prop := e = .stream .onClose ∨ e = .cancled

def Disconnected (tr : List ListenEv) : Prop :=
  ∃ recvs, .stream (.received recvs) ∈ tr ∧ recvs.any RecvResult.disconnects = true

/-- When a stream may close. -/
structure ClosesRightly (tr : List ListenEv) : Prop where
  disconnected : Always (fun t e => e.Closes → Disconnected t) tr
  /-- An event without data leaves the connection open. -/
  stays : ∀ t recvs t', tr = t ++ .stream (.received recvs) :: t' → Dry recvs → ∀ e ∈ t'.head?, ¬e.Closes

/-- Every event found data or the end of the connection. -/
def NoneDry (tr : List ListenEv) : Prop := ∀ recvs, .stream (.received recvs) ∈ tr → ¬Dry recvs

theorem noneDry_append (tr tr' : List ListenEv) : NoneDry (tr ++ tr') ↔ NoneDry tr ∧ NoneDry tr' := by
  simp only [NoneDry, List.mem_append, or_imp, forall_and]

theorem dry_of_empty (hread : tryRead [] recvs = some (key, value, [])) (hbytes : bytesOf recvs = [])
    (hno : recvs.any RecvResult.disconnects = false) : Dry recvs := by
  cases recvs with
  | nil => cases hread
  | cons r recvs =>
    cases r with
    | data bytes =>
      have hnil : bytes.val = [] := (List.append_eq_nil_iff.mp hbytes).1
      have hlen := bytes.property.1
      rw [hnil] at hlen
      cases hlen
    | zero => cases hno
    | error errno =>
      rw [List.any_cons, Bool.or_eq_false_iff] at hno
      simpa [RecvResult.disconnects, Dry, or_iff_not_imp_left] using hno.1

theorem Dry.tryRead (h : Dry recvs) (hread : Network.tryRead rddata recvs = some (key, value, [])) :
    recvs.any RecvResult.disconnects = false ∧ value = rddata := by
  cases recvs with
  | nil => cases h
  | cons r recvs =>
    cases r with
    | error errno =>
      have hagain : errno = EAGAIN ∨ errno = EWOULDBLOCK := h
      rw [Network.tryRead, if_pos hagain] at hread
      cases hread
      exact ⟨by simp [RecvResult.disconnects, hagain], rfl⟩
    | _ => cases h

inductive Drained (recvs : List RecvResult) : Outcome → Prop
  | read : ¬Dry recvs → recvs.any RecvResult.disconnects = false → Drained recvs (.read key value)
  | ended : ¬Dry recvs → recvs.any RecvResult.disconnects = true → Drained recvs .close
  | dry : Dry recvs → recvs.any RecvResult.disconnects = false → Drained recvs .close

theorem sockStream_drained (h : SockStream.drain input = some (recvs, out)) : Drained recvs out := by
  unfold SockStream.drain at h
  split at h
  · rename_i key value hread
    cases h
    unfold SockStream.outcome
    rcases tryRead_eq hread with ⟨hno, hvalue, rfl⟩ | ⟨hdis, rfl, rfl⟩
    · split
      · rename_i hkey
        have hnil : value = [] := by simpa using hkey
        exact .dry (dry_of_empty hread (hvalue.symm.trans hnil) hno) hno
      · rename_i hkey
        refine .read (fun hdry => hkey ?_) hno
        rw [(hdry.tryRead hread).2]
        rfl
    · refine .ended (fun hdry => ?_) hdis
      cases hdis.symm.trans (hdry.tryRead hread).1
  · cases h

theorem disconnected_append {tr tr' : List ListenEv} :
    Disconnected (tr ++ tr') ↔ Disconnected tr ∨ Disconnected tr' := by
  simp only [Disconnected, List.mem_append, or_and_right, exists_or]

structure ClosedOk (fd : Int) (tr : List ListenEv) (s : Listening) : Prop where
  opened : s.Open fd → NoneDry tr ∧ ¬Disconnected tr
  iff : Always (fun t e => e.Closes → Disconnected t) tr ↔ NoneDry tr

theorem ClosedOk.step (h : ClosedOk fd tr s) (hs : Listens fd SockStream.drain s s' es) :
    ClosedOk fd (tr ++ es) s' := by
  cases hs with
  | other hopen =>
    rw [List.append_nil]
    exact ⟨fun h' => h.opened (hopen h'), h.iff⟩
  | @read input recvs key value hopen hout =>
    obtain ⟨hnone, hdis⟩ := h.opened hopen
    have hdrained := sockStream_drained hout
    cases hdrained with
    | read hdry hno =>
      have hnone' : NoneDry (tr ++ (.stream (.received recvs) ::
          if s.m_onRead then [.stream (.onRead key value)] else [])) := by
        rw [noneDry_append]
        refine ⟨hnone, ?_⟩
        cases s.m_onRead <;> simpa [NoneDry] using hdry
      refine ⟨fun _ => ⟨hnone', ?_⟩, iff_of_true ?_ hnone'⟩
      · rw [disconnected_append, not_or]
        refine ⟨hdis, ?_⟩
        cases s.m_onRead <;> simpa [Disconnected] using hno
      · rw [always_append]
        refine ⟨h.iff.mpr hnone, ?_⟩
        cases s.m_onRead <;> simp [AlwaysFrom, ListenEv.Closes]
  | @close input recvs _ hopen hclosed hout =>
    obtain ⟨hnone, hdis⟩ := h.opened hopen
    refine ⟨fun h' => absurd h' hclosed, ?_⟩
    rw [always_append, noneDry_append, and_iff_right hnone, and_iff_right (h.iff.mpr hnone)]
    have hdrained := sockStream_drained hout
    cases hdrained with
    | ended hdry hend =>
      have hdis' : Disconnected [.stream (.received recvs)] := ⟨recvs, List.mem_singleton_self _, hend⟩
      refine iff_of_true ?_ ?_
      · cases s.m_onClose <;>
          simp [AlwaysFrom, ListenEv.Closes, disconnected_append, hdis', -List.append_assoc]
      · cases s.m_onClose <;> simpa [NoneDry] using hdry
    | dry hdry hno =>
      have hno' : ¬Disconnected [.stream (.received recvs)] := by simpa [Disconnected] using hno
      refine iff_of_false ?_ ?_
      · cases s.m_onClose <;>
          simp [AlwaysFrom, ListenEv.Closes, disconnected_append, hdis, hno', -List.append_assoc]
      · cases s.m_onClose <;> simpa [NoneDry] using hdry
  | ignore hopen hout => cases sockStream_drained hout

theorem listening_closed (h : (listening fd SockStream.drain).Run tr s) : ClosedOk fd tr s := by
  have hnil : ClosedOk fd [] (listening fd SockStream.drain).init :=
    ⟨fun _ => ⟨nofun, nofun⟩, iff_of_true always_nil nofun⟩
  exact listening_invariant hnil (fun _ _ _ _ ih hs => ih.step hs) h

/-- In every run a `SockStream` closes only on a disconnect, and is left open by
an event without data, just when there is no such event. -/
theorem sockStream_closes_rightly_iff (fd : Int) (tr : List ListenEv) (s : Listening)
    (h : (listening fd SockStream.drain).Run tr s) : ClosesRightly tr ↔ NoneDry tr := by
  have hok := listening_closed h
  constructor
  · intro hright
    exact hok.iff.mp hright.disconnected
  · intro hnone
    refine ⟨hok.iff.mpr hnone, ?_⟩
    rintro t recvs t' rfl hdry
    exact absurd hdry (hnone recvs (by simp))

theorem sockStream_closes_rightly_iff_run : ∃ tr s, (listening 5 SockStream.drain).Run tr s ∧
    tr = [.stream (.received [.data ⟨[104, 105], by decide⟩, .error 11]), .stream (.onRead 2 [104, 105]),
      .stream (.received [.zero]), .stream .onClose, .cancled] ∧ (ClosesRightly tr ↔ NoneDry tr) := by
  have hr : ((listening 5 SockStream.drain).replay ⟨⟨∅, ∅, false⟩, false, true, false, false⟩
      [.setOnRead, .setOnClose, .listenReadEvent,
        .ready 1 [.data ⟨[104, 105], by decide⟩, .error 11], .call (.notifyEvents 5 4), .ready 4 [],
        .ready 17 [.zero]]).isSome := rfl
  have hrun := Machine.steps_of_replay (Option.some_get hr).symm
  exact ⟨_, _, hrun, rfl, sockStream_closes_rightly_iff 5 _ _ hrun⟩

/-- `EPOLLIN` is posted by hand, and `recv` has nothing: the stream closes. -/
theorem sockStream_closes_when_dry : ∃ tr s, (listening 5 SockStream.drain).Run tr s ∧
    tr = [.stream (.received [.error EAGAIN]), .stream .onClose, .cancled] ∧ ¬ClosesRightly tr := by
  have hr : ((listening 5 SockStream.drain).replay ⟨⟨∅, ∅, false⟩, false, true, false, false⟩
      [.setOnRead, .setOnClose, .listenReadEvent, .call (.notifyEvents 5 EPOLLIN),
        .ready EPOLLIN [.error EAGAIN]]).isSome := rfl
  have hrun := Machine.steps_of_replay (Option.some_get hr).symm
  refine ⟨_, _, hrun, rfl, fun hright => ?_⟩
  exact hright.stays [] [.error EAGAIN] _ rfl (.inl rfl) (.stream .onClose) rfl (.inl rfl)

end Andren.Network
