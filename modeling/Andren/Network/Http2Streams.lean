import Andren.Network.Http2

/-!
# The streams of an HTTP/2 session

The callbacks of a stream begin with a block of headers and end when the stream is closed;
frames that concern the connection carry the stream id 0. The callbacks look an entry up
with `streams[id]`, which makes it, and only the close of a stream removes one. So the
entries are of open streams as long as no frame of the connection is received: the first
`SETTINGS` makes an entry 0, which stays (`streams_live_iff`).
-/

namespace Andren.Network

open Machines
open Std (TreeMap)

inductive StreamPhase
  | idle
  | opened
  | closed
  deriving DecidableEq

/-- What is known of the streams: how far each has come, and whether it ever had an entry. -/
structure StreamsSeen where
  phase : Int → StreamPhase
  had : Int → Bool

namespace Http2Act

def begun : Http2Act → Option Int
  | .beginHeaders frame _ => some frame.stream_id
  | _ => none

def closed : Http2Act → Option Int
  | .streamClose stream_id _ _ => some stream_id
  | _ => none

/-- The id that is looked up in `streams`. -/
def touched (s : Http2State) : Http2Act → Option Int
  | .header _ _ => s.block.map (·.stream_id)
  | .frameRecv frame _ _ => some frame.stream_id
  | .dataChunkRecv _ stream_id _ _ => some stream_id
  | .beginHeaders _ _ | .streamClose _ _ _ => none

end Http2Act

namespace Http2Ev

def connection : Http2Ev → Bool
  | .frameRecv f _ => f.stream_id == 0
  | _ => false

def closes (k : Int) : Http2Ev → Bool
  | .onStreamClosed j _ => j == k
  | _ => false

end Http2Ev

def StreamsSeen.next (t : StreamsSeen) (a : Http2Act) (s : Http2State) : StreamsSeen where
  phase k := if a.closed = some k then .closed else if a.begun = some k then .opened else t.phase k
  had k := t.had k || s.session.streams.contains k

/-- A session, and what is known of its streams. -/
def http2Streams : Machine (Http2State × StreamsSeen) Http2Act Http2Ev where
  init := (http2Session.init, ⟨fun _ => .idle, fun _ => false⟩)
  step s a := (http2Session.step s.1 a).map fun r => ((r.1, s.2.next a r.1), r.2)

/-- The callbacks of a stream begin with a block of headers and end with its close. With
the id 0 only frames come. -/
def Disciplined (s : Http2State × StreamsSeen) : Http2Act → Prop
  | .beginHeaders frame _ => frame.stream_id ≠ 0 ∧ s.2.phase frame.stream_id ≠ .closed
  | .header _ _ => s.1.block.all (fun frame => s.2.phase frame.stream_id = .opened) = true
  | .frameRecv frame _ _ => frame.stream_id = 0 ∨ s.2.phase frame.stream_id = .opened
  | .dataChunkRecv _ stream_id _ _ => s.2.phase stream_id = .opened
  | .streamClose stream_id _ _ => s.2.phase stream_id = .opened

instance (s : Http2State × StreamsSeen) (a : Http2Act) : Decidable (Disciplined s a) :=
  match a with
  | .beginHeaders _ _ => inferInstanceAs (Decidable (_ ∧ _))
  | .header _ _ => inferInstanceAs (Decidable (_ = true))
  | .frameRecv _ _ _ => inferInstanceAs (Decidable (_ ∨ _))
  | .dataChunkRecv _ _ _ _ => inferInstanceAs (Decidable (_ = StreamPhase.opened))
  | .streamClose _ _ _ => inferInstanceAs (Decidable (_ = StreamPhase.opened))

/-- Each entry is of an open stream. `onStreamClosed` was called once for each stream that
had an entry and is closed, and for no other. -/
structure StreamsLive (tr : List Http2Ev) (s : Http2State × StreamsSeen) : Prop where
  live : ∀ k, k ∈ s.1.session.streams → s.2.phase k = .opened
  closed : ∀ k, tr.countP (Http2Ev.closes k) = if s.2.phase k = .closed ∧ s.2.had k = true then 1 else 0

-- ---------------------------------------------------------------------------
-- One callback
-- ---------------------------------------------------------------------------

theorem mem_insert_iff (s : Http2ndSession) (j : Int) (x : Http2ndStream) (k : Int) :
    k ∈ (s.insert j x).streams ↔ k ∈ s.streams ∨ some j = some k := by
  rw [Http2ndSession.insert, TreeMap.mem_insert, Std.compare_eq_iff_eq, Option.some.injEq, or_comm]

theorem frameCalls_plain (f : Nghttp2Frame) (headDone : Int) (he : e ∈ frameCalls f headDone) :
    e.connection = false ∧ ∀ k, e.closes k = false := by
  rcases List.mem_append.mp he with he | he
  · split at he
    · obtain rfl := List.mem_singleton.mp he
      exact ⟨rfl, fun _ => rfl⟩
    · cases he
  · split at he
    · cases he
    · split at he
      · obtain rfl := List.mem_singleton.mp he
        exact ⟨rfl, fun _ => rfl⟩
      · cases he

structure EntriesStep (s : Http2State) (a : Http2Act) (s' : Http2State) (es : List Http2Ev) : Prop where
  keys : ∀ k, k ∈ s'.session.streams ↔ a.closed ≠ some k ∧ (k ∈ s.session.streams ∨ a.touched s = some k)
  count : ∀ k, es.countP (Http2Ev.closes k) = if a.closed = some k ∧ k ∈ s.session.streams then 1 else 0
  connection : es.any Http2Ev.connection = true ↔ ∃ frame headDone ret,
    a = .frameRecv frame headDone ret ∧ frame.stream_id = 0

theorem entries_insert (htouched : a.touched s = some j) (hclosed : a.closed = none)
    (hsession : s'.session = s.session.insert j x) (hplain : ∀ e ∈ es, ∀ k, e.closes k = false)
    (hconnection : es.any Http2Ev.connection = true ↔ ∃ frame headDone ret,
      a = .frameRecv frame headDone ret ∧ frame.stream_id = 0) : EntriesStep s a s' es := by
  refine ⟨fun k => ?_, fun k => ?_, hconnection⟩
  · rw [hsession, mem_insert_iff, htouched, hclosed]
    exact (and_iff_right nofun).symm
  · have hnone : ∀ e ∈ es, ¬e.closes k = true := fun e he => ne_true_of_eq_false (hplain e he k)
    have hopen : ¬(a.closed = some k ∧ k ∈ s.session.streams) := fun h => nomatch hclosed.symm.trans h.1
    exact (List.countP_eq_zero.mpr hnone).trans (if_neg hopen).symm

theorem entries_frameRecv {frame : Nghttp2Frame} (hsession : s'.session = s.session.insert frame.stream_id x) :
    EntriesStep s (.frameRecv frame headDone ret) s' (.frameRecv frame headDone :: frameCalls frame headDone) := by
  refine entries_insert rfl rfl hsession (fun e he k => ?_) ?_
  · rcases List.mem_cons.mp he with rfl | he
    · rfl
    · exact (frameCalls_plain frame headDone he).2 k
  · have hcalls : (frameCalls frame headDone).any Http2Ev.connection = false :=
      List.any_eq_false.mpr fun e he => ne_true_of_eq_false (frameCalls_plain frame headDone he).1
    rw [List.any_cons, hcalls, Bool.or_false, Http2Ev.connection, beq_iff_eq]
    constructor
    · intro hzero
      exact ⟨frame, headDone, ret, rfl, hzero⟩
    · rintro ⟨_, _, _, heq, hzero⟩
      cases heq
      exact hzero

theorem entries_closeAbsent (hnone : s.session.streams[stream_id]? = none)
    (hstreams : s'.session.streams = s.session.streams) :
    EntriesStep s (.streamClose stream_id error_code ret) s' [.streamClose stream_id] := by
  have habsent : stream_id ∉ s.session.streams := by
    rw [TreeMap.mem_iff_isSome_getElem?, hnone]
    exact Bool.false_ne_true
  have hclosed : ∀ k, (Http2Act.streamClose stream_id error_code ret).closed = some k → k ∉ s.session.streams :=
    fun k heq => Option.some.inj heq ▸ habsent
  refine ⟨fun k => ?_, fun k => (if_neg fun h => hclosed k h.1 h.2).symm, by simp [Http2Ev.connection]⟩
  rw [hstreams]
  constructor
  · intro hk
    exact ⟨fun heq => hclosed k heq hk, .inl hk⟩
  · rintro ⟨-, hk | hk⟩
    · exact hk
    · cases hk

theorem entries_close (hsome : s.session.streams[stream_id]? = some x)
    (hstreams : s'.session.streams = s.session.streams.erase stream_id) :
    EntriesStep s (.streamClose stream_id error_code ret) s'
      [.streamClose stream_id, .onStreamClosed stream_id error_code] := by
  have hpresent : stream_id ∈ s.session.streams := by
    rw [TreeMap.mem_iff_isSome_getElem?, hsome]
    rfl
  have hkeys : ∀ k : Int, (Http2Act.streamClose stream_id error_code ret).closed = some k ↔ stream_id = k :=
    fun k => Option.some_inj
  refine ⟨fun k => ?_, fun k => ?_, by simp [Http2Ev.connection]⟩
  · rw [hstreams, TreeMap.mem_erase, ne_eq, Std.compare_eq_iff_eq, ne_eq, hkeys]
    exact and_congr_right fun _ => (or_iff_left nofun).symm
  · have hcount : [Http2Ev.streamClose stream_id, .onStreamClosed stream_id error_code].countP
        (Http2Ev.closes k) = if stream_id = k then 1 else 0 := by
      simp [Http2Ev.closes, List.countP_cons]
    refine hcount.trans (if_congr ?_ rfl rfl)
    rw [hkeys]
    exact ⟨fun heq => ⟨heq, heq ▸ hpresent⟩, And.left⟩

theorem http2Session_entries (hs : http2Session.step s a = some (s', es)) : EntriesStep s a s' es := by
  cases http2Session_step hs with
  | beginHeaders _ =>
    exact ⟨by simp [Http2Act.closed, Http2Act.touched], by simp [Http2Act.closed, Http2Ev.closes],
      by simp [Http2Ev.connection]⟩
  | header hblock _ =>
    exact entries_insert (by rw [Http2Act.touched, hblock]; rfl) rfl rfl (by simp [Http2Ev.closes])
      (by simp [Http2Ev.connection])
  | frameRecv _ => exact entries_frameRecv rfl
  | dataChunkRecv _ => exact entries_insert rfl rfl rfl (by simp [Http2Ev.closes]) (by simp [Http2Ev.connection])
  | closeAbsent hnone => exact entries_closeAbsent hnone rfl
  | close hsome => exact entries_close hsome rfl

-- ---------------------------------------------------------------------------
-- Runs
-- ---------------------------------------------------------------------------

structure Named (s : Http2State × StreamsSeen) (a : Http2Act) : Prop where
  begun : a.begun = some k → k ≠ 0 ∧ s.2.phase k ≠ .closed
  closed : a.closed = some k → s.2.phase k = .opened
  touched : a.touched s.1 = some k → s.2.phase k = .opened ∨
    k = 0 ∧ ∃ frame headDone ret, a = .frameRecv frame headDone ret ∧ frame.stream_id = 0

theorem Disciplined.named (h : Disciplined s a) : Named s a := by
  cases a with
  | beginHeaders frame newHead => exact ⟨fun heq => Option.some.inj heq ▸ h, nofun, nofun⟩
  | header name value =>
    refine ⟨nofun, nofun, fun htouched => .inl ?_⟩
    obtain ⟨frame, hblock, rfl⟩ := Option.map_eq_some_iff.mp htouched
    simpa [Disciplined, hblock] using h
  | frameRecv frame headDone reqRecvDone =>
    refine ⟨nofun, nofun, fun htouched => ?_⟩
    obtain rfl := Option.some.inj htouched
    rcases h with hzero | hopened
    · exact .inr ⟨hzero, frame, headDone, reqRecvDone, rfl, hzero⟩
    · exact .inl hopened
  | dataChunkRecv flags stream_id data ret => exact ⟨nofun, nofun, fun heq => .inl (Option.some.inj heq ▸ h)⟩
  | streamClose stream_id error_code ret => exact ⟨nofun, fun heq => Option.some.inj heq ▸ h, nofun⟩

def EntryAt (s : Http2State × StreamsSeen) (k : Int) : Prop :=
  match s.2.phase k with
  | .idle => k ∉ s.1.session.streams ∧ s.2.had k = false
  | .opened => k ∈ s.1.session.streams ↔ s.2.had k = true
  | .closed => k ∉ s.1.session.streams

def ClosedOnce (tr : List Http2Ev) (t : StreamsSeen) (k : Int) : Prop :=
  tr.countP (Http2Ev.closes k) = if t.phase k = .closed ∧ t.had k = true then 1 else 0

structure StreamsInv (tr : List Http2Ev) (s : Http2State × StreamsSeen) : Prop where
  zero : s.2.phase 0 = .idle
  connection : 0 ∈ s.1.session.streams ↔ tr.any Http2Ev.connection = true
  entry : ∀ k, k ≠ 0 → EntryAt s k
  closed : ∀ k, ClosedOnce tr s.2 k

section

variable {s s' : Http2State} {t : StreamsSeen} {a : Http2Act}

theorem had_next : (t.next a s').had k = true ↔ t.had k = true ∨ k ∈ s'.session.streams := by
  simp [StreamsSeen.next]

theorem phase_closed (h : a.closed = some k) : (t.next a s').phase k = .closed := if_pos h

theorem phase_begun (h : a.closed ≠ some k) (hbegun : a.begun = some k) : (t.next a s').phase k = .opened :=
  (if_neg h).trans (if_pos hbegun)

theorem phase_other (h : a.closed ≠ some k) (hbegun : a.begun ≠ some k) : (t.next a s').phase k = t.phase k :=
  (if_neg h).trans (if_neg hbegun)

theorem entryAt_opened (h : t.phase k = .opened) :
    EntryAt (s, t) k ↔ (k ∈ s.session.streams ↔ t.had k = true) := by
  simp only [EntryAt, h]

theorem closedOnce_zero (h : t.phase k ≠ .closed) : ClosedOnce tr t k ↔ tr.countP (Http2Ev.closes k) = 0 := by
  rw [ClosedOnce, if_neg fun hboth => h hboth.1]

theorem closed_step (hnamed : Named (s, t) a) (hstep : EntriesStep s a s' es) (hclosed : a.closed = some k)
    (hentry : EntryAt (s, t) k) (honce : ClosedOnce tr t k) :
    EntryAt (s', t.next a s') k ∧ ClosedOnce (tr ++ es) (t.next a s') k := by
  have hopened : t.phase k = .opened := hnamed.closed hclosed
  have hgone : k ∉ s'.session.streams := fun h => ((hstep.keys k).mp h).1 hclosed
  have hhad : (t.next a s').had k = true ↔ k ∈ s.session.streams := by
    rw [had_next, or_iff_left hgone]
    exact ((entryAt_opened hopened).mp hentry).symm
  constructor
  · simpa only [EntryAt, phase_closed hclosed] using hgone
  · rw [closedOnce_zero (by rw [hopened]; decide)] at honce
    rw [ClosedOnce, List.countP_append, honce, Nat.zero_add, hstep.count, phase_closed hclosed]
    exact if_congr (and_congr (iff_of_true hclosed rfl) hhad.symm) rfl rfl

theorem touched_step (hstep : EntriesStep s a s' es) (hclosed : a.closed ≠ some k)
    (htouched : a.touched s = some k) (hopened : t.phase k = .opened) (honce : ClosedOnce tr t k) :
    EntryAt (s', t.next a s') k ∧ ClosedOnce (tr ++ es) (t.next a s') k := by
  have hentry : k ∈ s'.session.streams := (hstep.keys k).mpr ⟨hclosed, .inr htouched⟩
  have hstill : (t.next a s').phase k = .opened := by
    by_cases hbegun : a.begun = some k
    · exact phase_begun hclosed hbegun
    · exact (phase_other hclosed hbegun).trans hopened
  rw [closedOnce_zero (by rw [hopened]; decide)] at honce
  rw [entryAt_opened hstill, closedOnce_zero (by rw [hstill]; decide), List.countP_append, honce, hstep.count,
    if_neg fun h => hclosed h.1]
  exact ⟨iff_of_true hentry (had_next.mpr (.inr hentry)), rfl⟩

theorem untouched_step (hnamed : Named (s, t) a) (hstep : EntriesStep s a s' es) (hclosed : a.closed ≠ some k)
    (htouched : a.touched s ≠ some k) (hentry : EntryAt (s, t) k) (honce : ClosedOnce tr t k) :
    EntryAt (s', t.next a s') k ∧ ClosedOnce (tr ++ es) (t.next a s') k := by
  have hkeys : k ∈ s'.session.streams ↔ k ∈ s.session.streams := by
    rw [hstep.keys, and_iff_right hclosed, or_iff_left htouched]
  have hcount : (tr ++ es).countP (Http2Ev.closes k) = tr.countP (Http2Ev.closes k) := by
    rw [List.countP_append, hstep.count, if_neg fun h => hclosed h.1, Nat.add_zero]
  cases hphase : t.phase k with
  | idle =>
    simp only [EntryAt, hphase] at hentry
    have hnone : k ∉ s'.session.streams := mt hkeys.mp hentry.1
    have hnever : ¬(t.next a s').had k = true := by
      rw [had_next, hentry.2, or_iff_left hnone]
      exact Bool.false_ne_true
    rw [closedOnce_zero (by rw [hphase]; decide)] at honce
    by_cases hbegun : a.begun = some k
    · have hnow : (t.next a s').phase k = .opened := phase_begun hclosed hbegun
      rw [entryAt_opened hnow, closedOnce_zero (by rw [hnow]; decide), hcount]
      exact ⟨iff_of_false hnone hnever, honce⟩
    · have hnow : (t.next a s').phase k = .idle := (phase_other hclosed hbegun).trans hphase
      rw [closedOnce_zero (by rw [hnow]; decide), hcount]
      exact ⟨by simpa only [EntryAt, hnow] using ⟨hnone, eq_false_of_ne_true hnever⟩, honce⟩
  | opened =>
    have hnow : (t.next a s').phase k = .opened := by
      by_cases hbegun : a.begun = some k
      · exact phase_begun hclosed hbegun
      · exact (phase_other hclosed hbegun).trans hphase
    rw [entryAt_opened hphase] at hentry
    rw [closedOnce_zero (by rw [hphase]; decide)] at honce
    rw [entryAt_opened hnow, closedOnce_zero (by rw [hnow]; decide), hcount, had_next, hkeys, ← hentry, or_self]
    exact ⟨Iff.rfl, honce⟩
  | closed =>
    have hnow : (t.next a s').phase k = .closed :=
      (phase_other hclosed fun hbegun => (hnamed.begun hbegun).2 hphase).trans hphase
    simp only [EntryAt, hphase] at hentry
    have hnone : k ∉ s'.session.streams := mt hkeys.mp hentry
    constructor
    · simpa only [EntryAt, hnow] using hnone
    · rw [ClosedOnce, hcount, honce, hphase, hnow]
      exact if_congr (and_congr_right fun _ => by rw [had_next, or_iff_left hnone]) rfl rfl

theorem stream_step (hnamed : Named (s, t) a) (hstep : EntriesStep s a s' es) (hk : k ≠ 0)
    (hentry : EntryAt (s, t) k) (honce : ClosedOnce tr t k) :
    EntryAt (s', t.next a s') k ∧ ClosedOnce (tr ++ es) (t.next a s') k := by
  by_cases hclosed : a.closed = some k
  · exact closed_step hnamed hstep hclosed hentry honce
  · by_cases htouched : a.touched s = some k
    · have hopened : t.phase k = .opened := (hnamed.touched htouched).resolve_right fun h => hk h.1
      exact touched_step hstep hclosed htouched hopened honce
    · exact untouched_step hnamed hstep hclosed htouched hentry honce

theorem streams_inv_step (hinv : StreamsInv tr (s, t)) (hd : Disciplined (s, t) a)
    (hs : http2Session.step s a = some (s', es)) : StreamsInv (tr ++ es) (s', t.next a s') := by
  have hnamed := hd.named
  have hstep := http2Session_entries hs
  have hclosed : a.closed ≠ some 0 := fun h => nomatch hinv.zero.symm.trans (hnamed.closed h)
  have hidle : (t.next a s').phase 0 = .idle :=
    (phase_other hclosed fun h => (hnamed.begun h).1 rfl).trans hinv.zero
  have htouched : a.touched s = some 0 ↔ es.any Http2Ev.connection = true := by
    rw [hstep.connection]
    constructor
    · intro h
      rcases hnamed.touched h with hopened | ⟨-, hframe⟩
      · cases hinv.zero.symm.trans hopened
      · exact hframe
    · rintro ⟨frame, headDone, ret, rfl, hzero⟩
      exact congrArg some hzero
  refine ⟨hidle, ?_, fun k hk => (stream_step hnamed hstep hk (hinv.entry k hk) (hinv.closed k)).1, fun k => ?_⟩
  · rw [hstep.keys, and_iff_right hclosed, hinv.connection, htouched, List.any_append, Bool.or_eq_true]
  · by_cases hk : k = 0
    · subst hk
      have hcount := hinv.closed 0
      rw [closedOnce_zero (by rw [hinv.zero]; decide)] at hcount
      rw [closedOnce_zero (by rw [hidle]; decide), List.countP_append, hcount, hstep.count,
        if_neg fun h => hclosed h.1]
    · exact (stream_step hnamed hstep hk (hinv.entry k hk) (hinv.closed k)).2

end

theorem streams_inv (h : http2Streams.RunIf Disciplined tr s) : StreamsInv tr s := by
  refine h.invariant (I := StreamsInv) ⟨rfl, ?_, ?_, fun k => ?_⟩ ?_
  · exact iff_of_false TreeMap.not_mem_emptyc Bool.false_ne_true
  · intro k _
    exact ⟨TreeMap.not_mem_emptyc, rfl⟩
  · exact (closedOnce_zero (t := http2Streams.init.2) nofun).mpr rfl
  · rintro tr ⟨s, t⟩ a s₁ es - hinv hd hs
    obtain ⟨⟨s', es'⟩, hstep, heq⟩ := Option.map_eq_some_iff.mp hs
    cases heq
    exact streams_inv_step hinv hd hstep

/-- The entries are those of open streams, each of which is closed once, if and only if no
frame of the connection was received. -/
theorem streams_live_iff (tr : List Http2Ev) (s : Http2State × StreamsSeen)
    (h : http2Streams.RunIf Disciplined tr s) :
    StreamsLive tr s ↔ ∀ f headDone, .frameRecv f headDone ∈ tr → f.stream_id ≠ 0 := by
  have hinv := streams_inv h
  have hany : tr.any Http2Ev.connection = true ↔ ∃ f headDone, .frameRecv f headDone ∈ tr ∧ f.stream_id = 0 := by
    rw [List.any_eq_true]
    constructor
    · rintro ⟨e, he, hconnection⟩
      cases e with
      | frameRecv f headDone => exact ⟨f, headDone, he, beq_iff_eq.mp hconnection⟩
      | _ => cases hconnection
    · rintro ⟨f, headDone, he, hzero⟩
      exact ⟨_, he, beq_iff_eq.mpr hzero⟩
  constructor
  · intro hlive f headDone he hzero
    have hentry : 0 ∈ s.1.session.streams := hinv.connection.mpr (hany.mpr ⟨f, headDone, he, hzero⟩)
    cases hinv.zero.symm.trans (hlive.live 0 hentry)
  · intro hframes
    refine ⟨fun k hk => ?_, hinv.closed⟩
    have hk0 : k ≠ 0 := by
      rintro rfl
      obtain ⟨f, headDone, he, hzero⟩ := hany.mp (hinv.connection.mp hk)
      exact hframes f headDone he hzero
    have hentry := hinv.entry k hk0
    unfold EntryAt at hentry
    split at hentry
    next => exact absurd hk hentry.1
    next hopened => exact hopened
    next => exact absurd hk hentry

theorem request_streams_live : ∃ tr s, http2Streams.RunIf Disciplined tr s ∧
    .onStreamClosed 1 0 ∈ tr ∧ StreamsLive tr s := by
  have hr : ((http2Streams.only Disciplined).replay http2Streams.init
    [.beginHeaders ⟨NGHTTP2_HEADERS, 5, 1, .request⟩ 0, .header ":path" "/",
      .frameRecv ⟨NGHTTP2_HEADERS, 5, 1, .request⟩ 0 0, .streamClose 1 0 0]).isSome := rfl
  have hrun := Machine.steps_of_replay_only (Option.some_get hr).symm
  refine ⟨_, _, hrun, by decide, (streams_live_iff _ _ hrun).mpr fun f headDone hf => ?_⟩
  have hmem : .frameRecv f headDone ∈ [Http2Ev.beginHeaders ⟨NGHTTP2_HEADERS, 5, 1, .request⟩,
    .header ⟨NGHTTP2_HEADERS, 5, 1, .request⟩ ":path" "/", .frameRecv ⟨NGHTTP2_HEADERS, 5, 1, .request⟩ 0,
    .onHeadDone 1 0, .onReqRecvDone 1, .streamClose 1, .onStreamClosed 1 0] := hf
  have hframe : f = ⟨NGHTTP2_HEADERS, 5, 1, .request⟩ ∧ headDone = 0 := by simpa using hmem
  rw [hframe.1]
  decide

/-- The settings make an entry 0, and no stream 0 was opened. -/
theorem settings_entry : ∃ tr s, http2Streams.RunIf Disciplined tr s ∧
    tr = [.frameRecv ⟨NGHTTP2_SETTINGS, 0, 0, .headers⟩ 0] ∧ 0 ∈ s.1.session.streams ∧ ¬StreamsLive tr s := by
  have hr : ((http2Streams.only Disciplined).replay http2Streams.init
    [.frameRecv ⟨NGHTTP2_SETTINGS, 0, 0, .headers⟩ 0 0]).isSome := rfl
  have hrun := Machine.steps_of_replay_only (Option.some_get hr).symm
  have hentry : 0 ∈ ((((http2Streams.only Disciplined).replay http2Streams.init
    [.frameRecv ⟨NGHTTP2_SETTINGS, 0, 0, .headers⟩ 0 0]).get hr).1).1.session.streams :=
    TreeMap.contains_iff_mem.mp rfl
  exact ⟨_, _, hrun, rfl, hentry, fun h => nomatch h.live 0 hentry⟩

end Andren.Network
