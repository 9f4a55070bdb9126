import Andren.Network.UnreadMessage

/-!
# Readers and writers that are restarted

`alreadyUid` is the reader's acknowledgement, and -1 in it is how the writer
sees that the reader is gone. A destructor stores the -1 over what was
acknowledged, so the next reader finds a message that was read readable again
(`smem_rereads_message`), and the next writer, whose own counter starts over at
-1, can be behind what the reader acknowledged (`smem_gets_stuck`).

The two parts say when this does not happen: readers may come and go as long as
none of them reads a message whose reader is gone, and a writer may follow
another when the reader's acknowledgement is gone as well.
-/

namespace Andren.Network

open Machines

-- ---------------------------------------------------------------------------
-- Readers that are restarted
-- ---------------------------------------------------------------------------

/-- What became of the message last written. `stale`: it was returned, and then
a reader was destroyed. -/
inductive LastMessage
  | none
  | unread
  | returned
  | stale
  deriving DecidableEq

def LastMessage.next : LastMessage → SmemAct → List SmemEv → LastMessage
  | _, _, [.wrote _] => .unread
  | _, _, [.returned _] => .returned
  | .returned, .dropReader, _ => .stale
  | m, _, _ => m

def freelockSmemLast (data : Nat → UInt8) : Machine (Smem × LastMessage) SmemAct SmemEv :=
  (freelockSmem data).watch .none LastMessage.next

/-- The calls on a writer that stays and on readers that come and go, none of
them an owner. -/
def ReadersRestart (_ : Smem) : SmemAct → Bool
  | .newWriter _ | .dropWriter | .newReader true => false
  | _ => true

/-- No `read_some` begins on a message whose reader is gone. -/
def ReadsFresh (s : Smem × LastMessage) (a : SmemAct) : Bool :=
  ReadersRestart s.1 a && (match a with
    | .readSome => s.2 ≠ .stale
    | _ => true)

/-- The page as it would be if no destructor had stored over the counter `ack`
that was last acknowledged. -/
def ShData.acked (p : ShData) (ack : Int) : ShData := { p with alreadyUid := ack }

/-- What `alreadyUid` is when `ack` was last acknowledged. -/
def AlreadyIs (ack already : Int) : LastMessage → Prop
  | .none => ack = -1 ∧ already = -1
  | .returned => already = ack
  | .unread => already = ack ∨ already = -1
  | .stale => already = -1

/-- A reader that will find the page readable finds an unread message or one
whose reader is gone; from `read_some` on it is unread. -/
def ReaderPc.Restarted (p : ShData) (m : LastMessage) : ReaderPc → Prop
  | .idle => True
  | .testing a => m = .unread ∨ m = .stale ∨ a = p.currentUid
  | .mayRead => m = .unread ∨ m = .stale
  | r => m = .unread ∧ ReaderOk p r

structure RestartOk (s : Smem) (m : LastMessage) (ack : Int) : Prop where
  page : PageOk (s.page.acked ack)
  already : AlreadyIs ack s.page.alreadyUid m
  unread : m = .unread ↔ s.page.currentUid ≠ ack
  counter : Counter ack
  writer : ∃ w, s.writer = some w ∧ WriterOk (s.page.acked ack) w
  reader : ∀ r ∈ s.reader, r.Restarted (s.page.acked ack) m

section

variable {p p' : ShData} {m : LastMessage} {ack : Int}

theorem counter_succUid_ne (h : Counter c) : succUid c ≠ -1 := by
  unfold Counter succUid int8Max at *
  split <;> omega

/-- The writer finds the page writable only when its last message was read and
acknowledged to it. -/
theorem RestartOk.writable (h : RestartOk s m ack) (hw : s.page.currentUid = s.page.alreadyUid) :
    s.page.currentUid = ack := by
  by_contra hne
  obtain rfl := h.unread.mpr hne
  obtain halready | halready := h.already
  · exact hne (hw.trans halready)
  · obtain heq | hsucc := h.page.turn
    · exact hne heq
    · exact counter_succUid_ne h.counter (hsucc.symm.trans (hw.trans halready))

theorem RestartOk.readable (h : RestartOk s m ack) (hahead : Ahead s.page.currentUid s.page.alreadyUid) :
    m = .unread ∨ m = .stale := by
  cases m with
  | unread => exact .inl rfl
  | stale => exact .inr rfl
  | none =>
    have hack : s.page.currentUid = ack := not_ne_iff.mp fun hne => nomatch h.unread.mpr hne
    obtain ⟨rfl, halready⟩ := h.already
    exact absurd (hack.trans halready.symm) hahead.ne
  | returned =>
    have hack : s.page.currentUid = ack := not_ne_iff.mp fun hne => nomatch h.unread.mpr hne
    have halready : s.page.alreadyUid = ack := h.already
    exact absurd (hack.trans halready.symm) hahead.ne

theorem last_next_nil (hread : a ≠ .dropReader) : m.next a [] = m := by
  cases m <;> cases a <;> first | rfl | contradiction

theorem last_next_wrote : m.next a [.wrote msg] = .unread := by cases m <;> rfl

theorem last_next_returned : m.next a [.returned str] = .returned := by cases m <;> rfl

theorem ReaderPc.Restarted.writer_turn (h : ReaderPc.Restarted p m r) (hm : m ≠ .unread)
    (hp : m' = m ∧ p'.currentUid = p.currentUid ∨ m' = .unread) : r.Restarted p' m' := by
  cases r with
  | idle => trivial
  | testing a =>
    obtain ⟨rfl, hcurrent⟩ | rfl := hp
    · exact h.imp_right (Or.imp_right fun ha => ha.trans hcurrent.symm)
    · exact .inl rfl
  | mayRead =>
    obtain ⟨rfl, -⟩ | rfl := hp
    · exact h
    · exact .inl rfl
  | copying | releasing => exact absurd h.1 hm

theorem RestartOk.writer_moves {r : Option ReaderPc} (h : RestartOk ⟨p, some w, r⟩ m ack)
    (hs : WriterMoves p w p' w' es) : RestartOk ⟨p', some w', r⟩ (m.next .writer es) ack ∧
      Chan.Steps Machine.anyStep (fun _ => (p.acked ack).pending) (es.flatMap SmemEv.obs)
        fun _ => (p'.acked ack).pending := by
  obtain ⟨_, hw', hw⟩ := h.writer
  cases hw'
  cases hs with
  | tests a =>
    rw [last_next_nil (a := .writer) nofun]
    refine ⟨⟨h.page, h.already, h.unread, h.counter, ⟨_, rfl, ?_⟩, h.reader⟩, .refl⟩
    split
    · rename_i ha
      exact h.writable (Eq.trans (Eq.symm hw) ha)
    · trivial
  | copies msg size crrt i c hlt hc =>
    obtain ⟨hpage, hwriter, -, hchan⟩ := hw.moves h.page (.copies msg size crrt i c hlt hc)
    rw [last_next_nil (a := .writer) nofun]
    have hm : m ≠ .unread := fun hm => h.unread.mp hm hw.1
    exact ⟨⟨hpage, h.already, h.unread, h.counter, ⟨_, rfl, hwriter⟩,
      fun r hr => (h.reader r hr).writer_turn hm (.inl ⟨rfl, rfl⟩)⟩, hchan⟩
  | copied msg size crrt i hge =>
    obtain ⟨hpage, hwriter, -, hchan⟩ := hw.moves h.page (.copied msg size crrt i hge)
    rw [last_next_nil (a := .writer) nofun]
    have hm : m ≠ .unread := fun hm => h.unread.mp hm hw.1
    exact ⟨⟨hpage, h.already, h.unread, h.counter, ⟨_, rfl, hwriter⟩,
      fun r hr => (h.reader r hr).writer_turn hm (.inl ⟨rfl, rfl⟩)⟩, hchan⟩
  | publishes msg size crrt =>
    obtain ⟨hpage, hwriter, -, hchan⟩ := hw.moves h.page (.publishes msg size crrt)
    have heq : p.currentUid = ack := hw.1
    have hcrrt : crrt = p.currentUid := hw.2.1
    rw [last_next_wrote]
    have hm : m ≠ .unread := fun hm => h.unread.mp hm heq
    refine ⟨⟨hpage, ?_, ?_, h.counter, ⟨_, rfl, hwriter⟩, fun r hr => ?_⟩, hchan⟩
    · have halready := h.already
      cases m with
      | none => exact .inr halready.2
      | returned => exact .inl halready
      | unread => exact absurd rfl hm
      | stale => exact .inr halready
    · refine iff_of_true rfl ?_
      show advance crrt p.currentUid ≠ ack
      rw [hcrrt, heq, advance_eq h.counter]
      exact succUid_ne ack
    · exact (h.reader r hr).writer_turn hm (.inr rfl)

theorem RestartOk.reader_moves {w : Option WriterPc} (h : RestartOk ⟨p, w, some r⟩ m ack)
    (hs : ReaderMoves p r p' r' es) : ∃ ack', RestartOk ⟨p', w, some r'⟩ (m.next .reader es) ack' ∧
      Chan.Steps Machine.anyStep (fun _ => (p.acked ack).pending) (es.flatMap SmemEv.obs)
        fun _ => (p'.acked ack').pending := by
  have hr := h.reader r rfl
  obtain ⟨w, rfl, hw⟩ := h.writer
  cases hs with
  | tests a =>
    rw [last_next_nil (a := .reader) nofun]
    refine ⟨ack, ⟨h.page, h.already, h.unread, h.counter, ⟨w, rfl, hw⟩, ?_⟩, .refl⟩
    rintro _ ⟨⟩
    split
    · rename_i hahead
      obtain hm | hm | ha := hr
      · exact .inl hm
      · exact .inr hm
      · exact h.readable (ha ▸ hahead)
    · trivial
  | copies size str hlt =>
    obtain ⟨rfl, hr⟩ := hr
    obtain ⟨-, hreader, -, -⟩ := hr.moves h.page (.copies size str hlt)
    refine ⟨ack, ⟨h.page, h.already, h.unread, h.counter, ⟨w, rfl, hw⟩, ?_⟩, .refl⟩
    rintro _ ⟨⟩
    exact ⟨rfl, hreader⟩
  | copied size str hge =>
    obtain ⟨rfl, hr⟩ := hr
    obtain ⟨-, hreader, -, -⟩ := hr.moves h.page (.copied size str hge)
    refine ⟨ack, ⟨h.page, h.already, h.unread, h.counter, ⟨w, rfl, hw⟩, ?_⟩, .refl⟩
    rintro _ ⟨⟩
    exact ⟨rfl, hreader⟩
  | releases str crrt =>
    obtain ⟨-, hr⟩ := hr
    have hcrrt : crrt = p.currentUid := hr.2.1
    have hstep : ReaderMoves (p.acked ack) (.releasing str crrt) ({ p with alreadyUid := crrt }.acked crrt) .idle
      [.returned str] := .releases str crrt
    obtain ⟨hpage, -, hwriter, hchan⟩ := hr.moves h.page hstep
    rw [last_next_returned]
    refine ⟨crrt, ⟨hpage, rfl, ?_, hcrrt ▸ h.page.current, ⟨w, rfl, hwriter w hw⟩, ?_⟩, hchan⟩
    · exact iff_of_false nofun fun hne => hne hcrrt.symm
    · rintro _ ⟨⟩
      trivial

theorem freelockSmem_restart {data : Nat → UInt8} {s s' : Smem} (h : RestartOk s m ack)
    (hok : ReadsFresh (s, m) a = true) (hs : (freelockSmem data).step s a = some (s', es)) :
    ∃ ack', RestartOk s' (m.next a es) ack' ∧ Chan.Steps Machine.anyStep (fun _ => (s.page.acked ack).pending)
      (es.flatMap SmemEv.obs) fun _ => (s'.page.acked ack').pending := by
  obtain ⟨hrestart, hfresh⟩ := Bool.and_eq_true_iff.mp hok
  obtain ⟨p, _, r⟩ := s
  obtain ⟨w, rfl, hw⟩ := h.writer
  cases freelockSmem_moves hs with
  | writable =>
    rw [last_next_nil (a := .writable) nofun]
    exact ⟨ack, ⟨h.page, h.already, h.unread, h.counter, ⟨_, rfl, rfl⟩, h.reader⟩, .refl⟩
  | writeSome msg =>
    rw [last_next_nil (a := .writeSome msg) nofun]
    refine ⟨ack, ⟨h.page, h.already, h.unread, h.counter, ⟨_, rfl, hw, rfl, rfl, Nat.zero_le _, ?_⟩, h.reader⟩,
      .refl⟩
    intro j hj
    omega
  | writer hstep => exact ⟨ack, h.writer_moves hstep⟩
  | readable =>
    rw [last_next_nil (a := .readable) nofun]
    refine ⟨ack, ⟨h.page, h.already, h.unread, h.counter, ⟨_, rfl, hw⟩, ?_⟩, .refl⟩
    exact fun _ hr => Option.some.inj hr ▸ .inr (.inr rfl)
  | readSome =>
    rw [last_next_nil (a := .readSome) nofun]
    have hm : m = .unread := (h.reader _ rfl).resolve_right (of_decide_eq_true hfresh)
    refine ⟨ack, ⟨h.page, h.already, h.unread, h.counter, ⟨_, rfl, hw⟩, ?_⟩, .refl⟩
    rintro _ ⟨⟩
    exact ⟨hm, h.unread.mp hm, rfl, Nat.zero_le _, rfl⟩
  | reader hstep => exact h.reader_moves hstep
  | newReader owner =>
    cases owner with
    | true => cases hrestart
    | false =>
      rw [last_next_nil (a := .newReader false) nofun]
      refine ⟨ack, ⟨h.page, h.already, h.unread, h.counter, ⟨_, rfl, hw⟩, ?_⟩, .refl⟩
      exact fun _ hr => Option.some.inj hr ▸ trivial
  | dropReader =>
    refine ⟨ack, ⟨h.page, ?_, ?_, h.counter, ⟨w, rfl, hw⟩, nofun⟩, .refl⟩
    · cases m with
      | none => exact ⟨h.already.1, rfl⟩
      | unread => exact .inr rfl
      | returned | stale => rfl
    · refine Iff.trans ?_ h.unread
      cases m <;> simp [LastMessage.next]
  | dropWriter => cases hrestart

theorem smem_restart_inv {data : Nat → UInt8}
    (h : (freelockSmemLast data).RunIf (fun s a => ReadsFresh s a = true) tr s) :
    ∃ ack, RestartOk s.1 s.2 ack ∧ Chan.Run (tr.flatMap SmemEv.obs) fun _ => (s.1.page.acked ack).pending := by
  refine h.invariant (I := fun tr s => ∃ ack, RestartOk s.1 s.2 ack ∧
    Chan.Run (tr.flatMap SmemEv.obs) fun _ => (s.1.page.acked ack).pending) ?_ ?_
  · refine ⟨-1, ⟨⟨counter_init, .inl rfl, Nat.zero_le _⟩, ⟨rfl, rfl⟩, ?_, counter_init, ⟨_, rfl, trivial⟩, ?_⟩,
      .refl⟩
    · exact iff_of_false nofun fun hne => hne rfl
    · exact fun _ hr => Option.some.inj hr ▸ trivial
  · rintro tr ⟨s, m⟩ a ⟨s', m'⟩ es - ⟨ack, hinv, hchan⟩ hok hs
    obtain ⟨hstep, rfl⟩ := Machine.step_of_watch hs
    obtain ⟨ack', hinv', hchan'⟩ := freelockSmem_restart hinv hok hstep
    rw [List.flatMap_append]
    exact ⟨ack', hinv', hchan.trans hchan'⟩

-- What the condition leaves out: a read that begins on a stale message.

theorem written_append (tr tr' : List SmemEv) : written (tr ++ tr') = written tr ++ written tr' := by
  induction tr with
  | nil => rfl
  | cons e tr ih => cases e <;> simp [written, ih]

def HoldsLast (tr : List SmemEv) (s : Smem) : Prop :=
  ∀ w ∈ s.writer, ¬w.writing → written tr ≠ [] → (written tr).getLast? = some s.page.bytes

theorem HoldsLast.keep (h : HoldsLast tr s) (hw : ∀ w' ∈ s'.writer, ¬w'.writing → ∃ w ∈ s.writer, ¬w.writing)
    (hbytes : s'.page.bytes = s.page.bytes) (hes : written es = []) : HoldsLast (tr ++ es) s' := by
  intro w' hw' hwriting
  obtain ⟨w, hmem, hnot⟩ := hw w' hw' hwriting
  rw [written_append, hes, List.append_nil, hbytes]
  exact h w hmem hnot

theorem holdsLast_step {data : Nat → UInt8} {s s' : Smem} (h : RestartOk s m ack) (hlast : HoldsLast tr s)
    (hok : ReadersRestart s a = true) (hs : (freelockSmem data).step s a = some (s', es)) :
    HoldsLast (tr ++ es) s' := by
  obtain ⟨p, _, r⟩ := s
  obtain ⟨w, rfl, hw⟩ := h.writer
  have hsame : ∀ w' ∈ some w, ¬w'.writing → ∃ w'' ∈ some w, ¬w''.writing := fun w' hw' hnot => ⟨w', hw', hnot⟩
  cases freelockSmem_moves hs with
  | writable hnot => exact hlast.keep (fun _ _ _ => ⟨_, rfl, hnot⟩) rfl rfl
  | writeSome => exact hlast.keep (fun _ _ _ => ⟨_, rfl, id⟩) rfl rfl
  | writer hstep =>
    cases hstep with
    | tests => exact hlast.keep (fun _ _ _ => ⟨_, rfl, id⟩) rfl rfl
    | copies | copied =>
      rintro _ ⟨⟩ hnot
      exact absurd trivial hnot
    | publishes msg size crrt =>
      rintro _ ⟨⟩ - -
      rw [written_append, show written [.wrote msg] = [msg.take shmemSizeDefault] from rfl, List.getLast?_concat]
      exact congrArg some hw.2.2.symm
  | readable | readSome | dropReader => exact hlast.keep hsame rfl rfl
  | reader hstep => cases hstep <;> exact hlast.keep hsame rfl rfl
  | newReader owner =>
    cases owner with
    | true => cases hok
    | false => exact hlast.keep hsame rfl rfl
  | dropWriter => cases hok

theorem reader_returns (data : Nat → UInt8) {p : ShData} (w : Option WriterPc) (str : List UInt8)
    (hsize : p.size ≤ shmemSizeDefault) (hn : n = p.size - str.length) (hlen : str.length ≤ p.size)
    (hstr : str = p.bytes.take str.length) :
    ∃ s, (freelockSmem data).Steps Machine.anyStep ⟨p, w, some (.copying p.size str)⟩ [.returned p.bytes] s := by
  induction n generalizing str with
  | zero =>
    have hfull : str = p.bytes := by
      rw [hstr, List.take_of_length_le]
      rw [length_bytes]
      omega
    have hload : (freelockSmem data).step ⟨p, w, some (.copying p.size str)⟩ .reader =
        some (⟨p, w, some (.releasing str p.currentUid)⟩, []) := by
      simp [freelockSmem, readerStep, show ¬str.length < p.size by omega]
    subst hfull
    exact ⟨_, (Machine.Steps.one trivial hload).trans (.one trivial (a := .reader) rfl)⟩
  | succ n ih =>
    have hlt : str.length < p.size := by omega
    have hcopy : (freelockSmem data).step ⟨p, w, some (.copying p.size str)⟩ .reader =
        some (⟨p, w, some (.copying p.size (str ++ [p.data str.length]))⟩, []) := by
      simp [freelockSmem, readerStep, hlt, show str.length < shmemSizeDefault by omega]
    obtain ⟨s, hsteps⟩ := ih (str ++ [p.data str.length]) (by simp; omega) (by simp; omega) (by
      rw [List.length_append, List.length_singleton, List.take_add_one, ← hstr]
      simp [ShData.bytes, hlt])
    exact ⟨s, (Machine.Steps.one trivial hcopy).trans hsteps⟩

/-- When a reader may read a message that is stale and the writer is not inside
`write_some`, the read returns the last message a second time. -/
theorem smem_rereads_stale {data : Nat → UInt8}
    (h : (freelockSmemLast data).RunIf (fun s a => ReadsFresh s a = true) tr (s, .stale))
    (hw : ∀ w ∈ s.writer, ¬w.writing) (hr : s.reader = some .mayRead) (hne : written tr ≠ []) :
    ∃ s', (freelockSmem data).Steps Machine.anyStep s [.returned s.page.bytes] s' ∧
      (written tr).getLast? = some s.page.bytes ∧ returned tr = written tr := by
  obtain ⟨ack, hinv, hchan⟩ := smem_restart_inv h
  have heq : s.page.currentUid = ack := by
    by_contra hcurrent
    cases hinv.unread.mpr hcurrent
  have hlast : HoldsLast tr s := by
    refine h.invariant (I := fun tr s => HoldsLast tr s.1) (fun _ _ _ hwritten => absurd rfl hwritten) ?_
    rintro tr ⟨s, m⟩ a ⟨s', m'⟩ es hsteps hlast hok hs
    obtain ⟨hstep, rfl⟩ := Machine.step_of_watch hs
    obtain ⟨ack, hinv, -⟩ := smem_restart_inv hsteps
    exact holdsLast_step hinv hlast (Bool.and_eq_true_iff.mp hok).1 hstep
  obtain ⟨w, hwriter, -⟩ := hinv.writer
  have hread : ∃ s', (freelockSmem data).Steps Machine.anyStep s [.returned s.page.bytes] s' := by
    obtain ⟨p, w, r⟩ := s
    cases hr
    obtain ⟨s', hsteps⟩ := reader_returns data (p := p) w [] hinv.page.size_le rfl (Nat.zero_le _) rfl
    have hbegin : (freelockSmem data).Steps Machine.anyStep ⟨p, w, some .mayRead⟩ []
        ⟨p, w, some (.copying p.size [])⟩ := .one trivial (a := .readSome) rfl
    exact ⟨s', hbegin.trans hsteps⟩
  obtain ⟨s', hsteps⟩ := hread
  refine ⟨s', hsteps, hlast w hwriter (hw w hwriter) hne, ?_⟩
  have hfifo := channels_fifo hchan ()
  rw [puts_smemObs, gots_smemObs, pending_of_eq (by exact heq), List.append_nil] at hfifo
  exact hfifo.symm

/-- Readers come and go under one writer. As long as no `read_some` begins on a
message that was returned and whose reader is gone, the strings that the
readers return, taken together, are the messages in turn, each of them once. -/
theorem smem_reads_once (data : Nat → UInt8) (tr : List SmemEv) (s : Smem) (m : LastMessage)
    (h : (freelockSmemLast data).RunIf (fun s a => ReadsFresh s a = true) tr (s, m)) :
    returned tr <+: written tr := by
  obtain ⟨ack, -, hchan⟩ := smem_restart_inv h
  have hfifo := channels_fifo hchan ()
  rw [puts_smemObs, gots_smemObs] at hfifo
  exact ⟨_, hfifo.symm⟩

theorem smem_reads_once_run : ∃ tr s m,
    (freelockSmemLast fun _ => 0).RunIf (fun s a => ReadsFresh s a = true) tr (s, m) ∧
      returned tr = [[72], [105], [33]] ∧ returned tr <+: written tr := by
  have hr : (((freelockSmemLast fun _ => 0).only fun s a => ReadsFresh s a = true).replay
      (freelockSmemLast fun _ => 0).init
      [.writable, .writer, .writeSome [72], .writer, .writer, .writer, .dropReader, .newReader false,
        .readable, .reader, .readSome, .reader, .reader, .reader,
        .writable, .writer, .writeSome [105], .writer, .writer, .writer,
        .readable, .reader, .readSome, .reader, .reader, .reader,
        .writable, .writer, .writeSome [33], .dropReader, .newReader false, .writer, .writer, .writer,
        .readable, .reader, .readSome, .reader, .reader, .reader]).isSome := rfl
  have hrun := Machine.steps_of_replay_only (Option.some_get hr).symm
  exact ⟨_, _, _, hrun, rfl, smem_reads_once _ _ _ _ hrun⟩

/-- One message is written and read; the reader is destroyed and its successor
reads the message again. -/
theorem smem_rereads_message : ∃ tr s,
    (freelockSmem fun _ => 0).RunIf (fun s a => ReadersRestart s a = true) tr s ∧
      written tr = [[72]] ∧ returned tr = [[72], [72]] := by
  have hr : (((freelockSmem fun _ => 0).only fun s a => ReadersRestart s a = true).replay
      (freelockSmem fun _ => 0).init
      [.writable, .writer, .writeSome [72], .writer, .writer, .writer,
        .readable, .reader, .readSome, .reader, .reader, .reader, .dropReader, .newReader false,
        .readable, .reader, .readSome, .reader, .reader, .reader]).isSome := rfl
  exact ⟨_, _, Machine.steps_of_replay_only (Option.some_get hr).symm, rfl, rfl⟩

end

-- ---------------------------------------------------------------------------
-- Writers that are restarted
-- ---------------------------------------------------------------------------

def ShData.writable (p : ShData) : Prop := p.currentUid = p.alreadyUid

instance (p : ShData) : Decidable p.writable := inferInstanceAs (Decidable (_ = _))

instance (p : ShData) : Decidable p.readable := inferInstanceAs (Decidable (Ahead _ _))

def WriterPc.between : WriterPc → Prop
  | .idle | .mayWrite => True
  | _ => False

def ReaderPc.between : ReaderPc → Prop
  | .idle | .mayRead => True
  | _ => False

/-- `alreadyUid` as the reader leaves it when the call it is inside returns. -/
def Smem.acknowledged (s : Smem) : Int :=
  match s.reader with
  | some (.copying ..) => s.page.currentUid
  | some (.releasing _ crrt) => crrt
  | _ => s.page.alreadyUid

def NoOwners (_ : Smem) : SmemAct → Bool
  | .newWriter owner | .newReader owner => !owner
  | _ => true

/-- A writer follows another only when the acknowledgement is gone too. -/
def FollowsClosed (s : Smem) (a : SmemAct) : Bool :=
  NoOwners s a && (match a with
    | .newWriter _ => s.acknowledged = -1
    | _ => true)

/-- `c` is not behind the acknowledgement `b`. -/
def InTurn (c b : Int) : Prop := c = b ∨ c = succUid b ∨ b = -1

/-- What the writer knows when it found the page writable: nothing that the
reader may still store differs from the counter that it found. -/
def WriterPc.InTurn (p : ShData) (r : Option ReaderPc) : WriterPc → Prop
  | .idle => True
  | .testing a => a = p.currentUid
  | w => (p.alreadyUid = p.currentUid ∨ p.alreadyUid = -1) ∧
      (∀ str crrt, r = some (.releasing str crrt) → crrt = p.currentUid ∨ crrt = -1) ∧
      match w with
      | .copying _ _ crrt _ | .publishing _ _ crrt => crrt = p.currentUid
      | _ => True

/-- What a reader leaves behind is in turn. -/
def ReaderPc.InTurn (p : ShData) : Option ReaderPc → Prop
  | some (.copying ..) => Network.InTurn p.currentUid p.alreadyUid ∨ p.currentUid = -1
  | some (.releasing _ crrt) =>
    Network.InTurn p.currentUid crrt ∧ (Network.InTurn crrt p.alreadyUid ∨ crrt = -1)
  | _ => Network.InTurn p.currentUid p.alreadyUid

structure TurnOk (s : Smem) : Prop where
  current : Counter s.page.currentUid
  already : Counter s.page.alreadyUid
  loaded : ∀ str crrt, s.reader = some (.releasing str crrt) → Counter crrt
  closed : s.writer = none → s.page.currentUid = -1
  noReader : s.reader = none → s.page.alreadyUid = -1
  reader : s.writer ≠ none → ReaderPc.InTurn s.page s.reader
  writer : ∀ w ∈ s.writer, w.InTurn s.page s.reader

section

variable {p p' : ShData}

theorem succUid_succUid_ne (c : Int) : succUid (succUid c) ≠ c := by
  unfold succUid int8Max
  split <;> split <;> omega

theorem InTurn.progress (h : InTurn c b) (hc : Counter c) (hb : Counter b) : c = b ∨ Ahead c b := by
  obtain rfl | rfl | rfl := h
  · exact .inl rfl
  · right
    unfold Ahead Counter succUid int8Max at *
    split <;> omega
  · unfold Ahead Counter at *
    omega

/-- What the reader loaded before the counters were found equal is what they are. -/
theorem InTurn.eq_of_equal (h : InTurn c crrt) (h' : InTurn crrt c ∨ crrt = -1) (hcrrt : Counter crrt) :
    crrt = c ∨ crrt = -1 := by
  obtain rfl | rfl | rfl := h
  · exact .inl rfl
  · obtain (h' | h' | h') | h' := h'
    · exact absurd h'.symm (succUid_ne crrt)
    · exact absurd h'.symm (succUid_succUid_ne crrt)
    · exact absurd h' (counter_succUid_ne hcrrt)
    · exact .inr h'
  · exact .inr rfl

theorem WriterPc.InTurn.frame {r r' : Option ReaderPc} (h : WriterPc.InTurn p r w)
    (hcurrent : p'.currentUid = p.currentUid) (halready : p'.alreadyUid = p.alreadyUid ∨ p'.alreadyUid = -1)
    (hr : ∀ str crrt, r' = some (.releasing str crrt) → crrt = p.currentUid ∨ r = r') : w.InTurn p' r' := by
  have hfound : (p.alreadyUid = p.currentUid ∨ p.alreadyUid = -1) →
      p'.alreadyUid = p'.currentUid ∨ p'.alreadyUid = -1 := by
    rw [hcurrent]
    exact fun hfound => halready.elim (fun heq => heq ▸ hfound) .inr
  have hloaded : (∀ str crrt, r = some (.releasing str crrt) → crrt = p.currentUid ∨ crrt = -1) →
      ∀ str crrt, r' = some (.releasing str crrt) → crrt = p'.currentUid ∨ crrt = -1 := by
    intro hloaded str crrt hr'
    rw [hcurrent]
    obtain heq | heq := hr str crrt hr'
    · exact .inl heq
    · exact hloaded str crrt (heq.trans hr')
  cases w with
  | idle => trivial
  | testing a => exact Eq.trans h hcurrent.symm
  | mayWrite => exact ⟨hfound h.1, hloaded h.2.1, trivial⟩
  | copying | publishing => exact ⟨hfound h.1, hloaded h.2.1, h.2.2.trans hcurrent.symm⟩

theorem ReaderPc.InTurn.of_not_reading (h : ReaderPc.InTurn p (some r)) (hr : ¬r.reading) :
    Network.InTurn p.currentUid p.alreadyUid := by
  cases r with
  | idle | testing | mayRead => exact h
  | copying | releasing => exact absurd trivial hr

theorem ReaderPc.InTurn.publish {r : Option ReaderPc} (h : ReaderPc.InTurn p r)
    (hfound : p.alreadyUid = p.currentUid ∨ p.alreadyUid = -1)
    (hloaded : ∀ str crrt, r = some (.releasing str crrt) → crrt = p.currentUid ∨ crrt = -1) :
    ReaderPc.InTurn { p with currentUid := succUid p.currentUid } r := by
  have hturn : Network.InTurn (succUid p.currentUid) p.alreadyUid :=
    .inr (hfound.imp_left fun heq => congrArg succUid heq.symm)
  match r with
  | none | some .idle | some (.testing _) | some .mayRead => exact hturn
  | some (.copying ..) => exact .inl hturn
  | some (.releasing str crrt) =>
    exact ⟨.inr ((hloaded str crrt rfl).imp_left fun heq => congrArg succUid heq.symm), h.2⟩

theorem TurnOk.writer_moves {r : Option ReaderPc} (h : TurnOk ⟨p, some w, r⟩) (hs : WriterMoves p w p' w' es) :
    TurnOk ⟨p', some w', r⟩ := by
  have hw := h.writer w rfl
  cases hs with
  | tests a =>
    refine ⟨h.current, h.already, h.loaded, nofun, h.noReader, fun _ => h.reader nofun, ?_⟩
    rintro _ ⟨⟩
    split
    · rename_i ha
      have heq : p.currentUid = p.alreadyUid := Eq.trans (Eq.symm hw) ha
      refine ⟨.inl heq.symm, ?_, trivial⟩
      rintro str crrt rfl
      obtain ⟨hcrrt, hcrrt'⟩ := h.reader nofun
      exact hcrrt.eq_of_equal (heq ▸ hcrrt') (h.loaded str crrt rfl)
    · trivial
  | copies | copied =>
    exact ⟨h.current, h.already, h.loaded, nofun, h.noReader, fun _ => h.reader nofun,
      fun _ hw' => Option.some.inj hw' ▸ hw⟩
  | publishes msg size crrt =>
    obtain ⟨hfound, hloaded, hcrrt⟩ := hw
    rw [show crrt = p.currentUid from hcrrt, advance_eq h.current]
    exact ⟨h.current.succ, h.already, h.loaded, nofun, h.noReader,
      fun _ => (h.reader nofun).publish hfound hloaded, fun _ hw' => Option.some.inj hw' ▸ trivial⟩

theorem TurnOk.reader_moves {w : Option WriterPc} (h : TurnOk ⟨p, w, some r⟩) (hs : ReaderMoves p r p' r' es) :
    TurnOk ⟨p', w, some r'⟩ := by
  cases hs with
  | tests a =>
    split
    all_goals
      exact ⟨h.current, h.already, nofun, h.closed, nofun, h.reader,
        fun w hw => (h.writer w hw).frame rfl (.inl rfl) nofun⟩
  | copies size str =>
    exact ⟨h.current, h.already, nofun, h.closed, nofun, h.reader,
      fun w hw => (h.writer w hw).frame rfl (.inl rfl) nofun⟩
  | copied size str =>
    refine ⟨h.current, h.already, ?_, h.closed, nofun, fun hw => ⟨.inl rfl, h.reader hw⟩, fun w hw => ?_⟩
    · rintro _ _ ⟨⟩
      exact h.current
    · refine (h.writer w hw).frame rfl (.inl rfl) ?_
      rintro _ _ ⟨⟩
      exact .inl rfl
  | releases str crrt =>
    refine ⟨h.current, h.loaded str crrt rfl, nofun, h.closed, nofun, fun hw => (h.reader hw).1, fun w hw => ?_⟩
    have hturn := h.writer w hw
    cases w with
    | idle => trivial
    | testing => exact hturn
    | mayWrite | copying | publishing => exact ⟨hturn.2.1 str crrt rfl, nofun, hturn.2.2⟩

theorem freelockSmem_turn {data : Nat → UInt8} {s s' : Smem} (h : TurnOk s) (hok : FollowsClosed s a = true)
    (hs : (freelockSmem data).step s a = some (s', es)) : TurnOk s' := by
  obtain ⟨howner, hclosed⟩ := Bool.and_eq_true_iff.mp hok
  obtain ⟨p, w, r⟩ := s
  cases freelockSmem_moves hs with
  | writable =>
    exact ⟨h.current, h.already, h.loaded, nofun, h.noReader, fun _ => h.reader nofun,
      fun _ hw => Option.some.inj hw ▸ rfl⟩
  | writeSome msg =>
    obtain ⟨hfound, hloaded, -⟩ := h.writer _ rfl
    exact ⟨h.current, h.already, h.loaded, nofun, h.noReader, fun _ => h.reader nofun,
      fun _ hw => Option.some.inj hw ▸ ⟨hfound, hloaded, rfl⟩⟩
  | writer hstep => exact h.writer_moves hstep
  | readable hnot =>
    exact ⟨h.current, h.already, nofun, h.closed, nofun,
      fun hw => ReaderPc.InTurn.of_not_reading (h.reader hw) hnot,
      fun w hw => (h.writer w hw).frame rfl (.inl rfl) nofun⟩
  | readSome =>
    exact ⟨h.current, h.already, nofun, h.closed, nofun, fun hw => .inl (h.reader hw),
      fun w hw => (h.writer w hw).frame rfl (.inl rfl) nofun⟩
  | reader hstep => exact h.reader_moves hstep
  | newWriter owner =>
    cases owner with
    | true => cases howner
    | false =>
      refine ⟨h.current, h.already, h.loaded, nofun, h.noReader, fun _ => ?_,
        fun _ hw => Option.some.inj hw ▸ trivial⟩
      have hack : (Smem.mk p none r).acknowledged = -1 := of_decide_eq_true hclosed
      match r with
      | none | some .idle | some (.testing _) | some .mayRead => exact .inr (.inr hack)
      | some (.copying ..) => exact .inr hack
      | some (.releasing ..) => exact ⟨.inr (.inr hack), .inr hack⟩
  | dropWriter =>
    exact ⟨counter_init, h.already, h.loaded, fun _ => rfl, h.noReader, fun hw => absurd rfl hw, nofun⟩
  | newReader owner =>
    cases owner with
    | true => cases howner
    | false =>
      exact ⟨h.current, h.already, nofun, h.closed, nofun, h.reader,
        fun w hw => (h.writer w hw).frame rfl (.inl rfl) nofun⟩
  | dropReader =>
    exact ⟨h.current, counter_init, nofun, h.closed, fun _ => rfl, fun _ => .inr (.inr rfl),
      fun w hw => (h.writer w hw).frame rfl (.inr rfl) nofun⟩

theorem smem_turn_inv {data : Nat → UInt8}
    (h : (freelockSmem data).RunIf (fun s a => FollowsClosed s a = true) tr s) : TurnOk s := by
  refine h.state_invariant (I := TurnOk) ?_ fun s a s' es hinv hok hs => freelockSmem_turn hinv hok hs
  exact ⟨counter_init, counter_init, nofun, nofun, nofun, fun _ => .inl rfl,
    fun _ hw => Option.some.inj hw ▸ trivial⟩

theorem TurnOk.progress (h : TurnOk s) (hw : s.writer = some w) (hr : s.reader = some r) (hbetween : r.between) :
    s.page.writable ∨ s.page.readable := by
  have hturn := h.reader (hw ▸ nofun)
  rw [hr] at hturn
  cases r with
  | idle | mayRead => exact InTurn.progress hturn h.current h.already
  | testing | copying | releasing => exact hbetween.elim

/-- A counter that starts over is behind every other acknowledgement. -/
theorem stuck_of_behind (hcurrent : p.currentUid = -1) (hne : p.alreadyUid ≠ -1)
    (halready : Counter p.alreadyUid) : ¬p.writable ∧ ¬p.readable := by
  unfold ShData.writable ShData.readable Ahead Counter int8Max at *
  omega

/-- What the condition leaves out: when a writer follows another and the
acknowledgement is not gone, the end of the reader's call leaves neither side
able to go on. -/
theorem smem_stuck_of_open {data : Nat → UInt8}
    (h : (freelockSmem data).RunIf (fun s a => FollowsClosed s a = true) tr s) (hw : s.writer = none)
    (hne : s.acknowledged ≠ -1) : ∃ tr' s' w r,
      (freelockSmem data).Steps (fun s a => NoOwners s a = true) s tr' s' ∧ s'.writer = some w ∧
        s'.reader = some r ∧ w.between ∧ r.between ∧ ¬s'.page.writable ∧ ¬s'.page.readable := by
  have hinv := smem_turn_inv h
  obtain ⟨p, _, r⟩ := s
  cases hw
  have hcurrent := hinv.closed rfl
  have hnew : (freelockSmem data).Steps (fun s a => NoOwners s a = true) ⟨p, none, r⟩ [] ⟨p, some .idle, r⟩ :=
    .one rfl (a := .newWriter false) rfl
  match r with
  | none => exact absurd (hinv.noReader rfl) hne
  | some .idle | some .mayRead =>
    exact ⟨[], _, _, _, hnew, rfl, rfl, trivial, trivial, stuck_of_behind hcurrent hne hinv.already⟩
  | some (.testing a) =>
    obtain ⟨r', hstep, hbetween⟩ : ∃ r', readerStep p (.testing a) = some (p, r', []) ∧ r'.between := by
      refine ⟨_, rfl, ?_⟩
      split <;> trivial
    have hret : (freelockSmem data).step ⟨p, some .idle, some (.testing a)⟩ .reader =
        some (⟨p, some .idle, some r'⟩, []) := by
      simp [freelockSmem, hstep]
    exact ⟨_, _, .idle, r', hnew.trans (.one rfl hret), rfl, rfl, trivial, hbetween,
      stuck_of_behind hcurrent hne hinv.already⟩
  | some (.copying ..) => exact absurd hcurrent hne
  | some (.releasing str crrt) =>
    have hret : (freelockSmem data).step ⟨p, some .idle, some (.releasing str crrt)⟩ .reader =
      some (⟨{ p with alreadyUid := crrt }, some .idle, some .idle⟩, [.returned str]) := rfl
    exact ⟨_, _, .idle, .idle, hnew.trans (.one rfl hret), rfl, rfl, trivial, trivial,
      stuck_of_behind hcurrent hne (hinv.loaded str crrt rfl)⟩

end

/-- Writers and readers come and go. As long as a writer follows another only
when the acknowledgement is gone, or will be when the reader's call ends, one of
the two can go on whenever both are between calls. -/
theorem smem_never_stuck (data : Nat → UInt8) (tr : List SmemEv) (s : Smem)
    (h : (freelockSmem data).RunIf (fun s a => FollowsClosed s a = true) tr s) (w : WriterPc) (r : ReaderPc)
    (hw : s.writer = some w) (hr : s.reader = some r) (_ : w.between) (hbetween : r.between) :
    s.page.writable ∨ s.page.readable := (smem_turn_inv h).progress hw hr hbetween

theorem smem_never_stuck_run : ∃ tr s, (freelockSmem fun _ => 0).RunIf (fun s a => FollowsClosed s a = true) tr s ∧
    tr = [.wrote [72], .returned [72], .wrote [33]] ∧ (s.page.writable ∨ s.page.readable) := by
  have hr : (((freelockSmem fun _ => 0).only fun s a => FollowsClosed s a = true).replay
      (freelockSmem fun _ => 0).init
      [.writable, .writer, .writeSome [72], .writer, .writer, .writer, .readable, .reader, .readSome,
        .dropWriter, .newWriter false, .reader, .reader, .reader, .dropReader, .newReader false,
        .writable, .writer, .writeSome [33], .writer, .writer, .writer]).isSome := rfl
  have hrun := Machine.steps_of_replay_only (Option.some_get hr).symm
  exact ⟨_, _, hrun, rfl, smem_never_stuck _ _ _ hrun .idle .idle rfl rfl trivial trivial⟩

/-- A message is written and read and the writer is replaced: neither the new
writer nor the reader can go on. -/
theorem smem_gets_stuck : ∃ tr s, (freelockSmem fun _ => 0).RunIf (fun s a => NoOwners s a = true) tr s ∧
    s.writer = some .idle ∧ s.reader = some .idle ∧ ¬s.page.writable ∧ ¬s.page.readable := by
  have hr : (((freelockSmem fun _ => 0).only fun s a => NoOwners s a = true).replay (freelockSmem fun _ => 0).init
      [.writable, .writer, .writeSome [72], .writer, .writer, .writer,
        .readable, .reader, .readSome, .reader, .reader, .reader, .dropWriter, .newWriter false]).isSome := rfl
  have hrun := Machine.steps_of_replay_only (Option.some_get hr).symm
  exact ⟨_, _, hrun, rfl, rfl, by decide, by decide⟩

end Andren.Network
