import Andren.Network.FreelockSmem

/-!
# The message that is not read yet

`~FreeLockShareMemWriter` stores -1 in `currentUid`, which is how a reader sees
that the writer is gone, and also how it sees whether there is a message. A
message that is in the page then is not readable any more.

The writers and readers come and go here, all of them on the page of the first
owner. As long as no writer goes while a message is unread, it stays readable
until a `read_some` that began after it returns (`smem_stays_readable`).
-/

namespace Andren.Network

open Machines

/-- Whether a message was written and not read, and whether a `read_some` that
began since then is under way. -/
inductive Unread
  | no
  | unread
  | reading
  deriving DecidableEq

def Unread.next : Unread → SmemAct → List SmemEv → Unread
  | _, _, [.wrote _] => .unread
  | .unread, .readSome, _ => .reading
  | .reading, _, [.returned _] => .no
  | u, _, _ => u

def freelockSmemUnread (data : Nat → UInt8) : Machine (Smem × Unread) SmemAct SmemEv :=
  (freelockSmem data).watch .no Unread.next

/-- What `readable` compares. -/
def Ahead (a b : Int) : Prop := a > b ∨ (b = int8Max ∧ a = 1)

instance (a b : Int) : Decidable (Ahead a b) := inferInstanceAs (Decidable (_ ∨ _))

def ShData.readable (p : ShData) : Prop := Ahead p.currentUid p.alreadyUid

def WriterPc.isPublishing : WriterPc → Bool
  | .publishing .. => true
  | _ => false

def ReaderPc.isCopying : ReaderPc → Bool
  | .copying .. => true
  | _ => false

def ReaderPc.isReleasing : ReaderPc → Bool
  | .releasing .. => true
  | _ => false

/-- A writer goes only when nothing is unread and no reader is about to store a
counter that it loaded before. A message is published only when no `read_some`
is copying: one that is began with nothing to read, by a reader made while the
writer was writing. No owner follows the first, which may map another page. -/
def Careful (s : Smem × Unread) : SmemAct → Bool
  | .dropWriter => s.2 = .no && !s.1.reader.any ReaderPc.isReleasing
  | .writer => !(s.1.writer.any WriterPc.isPublishing && s.1.reader.any ReaderPc.isCopying)
  | .newWriter owner | .newReader owner => !owner
  | .writable | .writeSome _ | .readable | .readSome | .reader | .dropReader => true

-- ---------------------------------------------------------------------------
-- The counters
-- ---------------------------------------------------------------------------

theorem Ahead.ne (h : Ahead a b) : a ≠ b := by
  unfold Ahead int8Max at h
  omega

theorem Ahead.of_dropped (h : Ahead a b) (hb : Counter b) : Ahead a (-1) := by
  unfold Ahead Counter int8Max at *
  omega

/-- The counter a writer stores, when the one it loaded is there still or was reset. -/
theorem advance_ahead (hc : Counter c) (hcrrt : crrt = c ∨ c = -1) :
    Counter (advance crrt c) ∧ Ahead (advance crrt c) c ∧ Ahead (advance crrt c) (-1) := by
  unfold Counter Ahead advance int8Max at *
  split
  · omega
  · rw [Int.bmod_eq_of_le (by omega) (by omega)]
    omega

-- ---------------------------------------------------------------------------
-- The invariant
-- ---------------------------------------------------------------------------

/-- From `mayWrite` on nothing is unread, and what will be published is readable. -/
def WriterPc.Knows (p : ShData) (u : Unread) : WriterPc → Prop
  | .idle => True
  | .testing a => a = p.currentUid ∨ u = .no ∧ p.currentUid = -1 ∧ p.alreadyUid = -1
  | .mayWrite => u = .no ∧ (p.alreadyUid = p.currentUid ∨ p.alreadyUid = -1)
  | .copying _ _ crrt _ | .publishing _ _ crrt =>
    u = .no ∧ (p.alreadyUid = p.currentUid ∨ p.alreadyUid = -1) ∧ (crrt = p.currentUid ∨ p.currentUid = -1)

/-- What a reader is about to store leaves a message readable that was
published after the load. -/
def ReaderPc.Knows (p : ShData) (u : Unread) : ReaderPc → Prop
  | .copying .. => u ≠ .unread
  | .releasing _ crrt => Counter crrt ∧ if u = .unread then Ahead p.currentUid crrt else crrt = p.currentUid
  | _ => True

structure UnreadOk (s : Smem) (u : Unread) : Prop where
  current : Counter s.page.currentUid
  already : Counter s.page.alreadyUid
  readable : u ≠ .no → s.page.readable
  writer : ∀ w ∈ s.writer, w.Knows s.page u
  reader : ∀ r ∈ s.reader, r.Knows s.page u

section

variable {p p' : ShData} {u u' : Unread}

theorem next_of_nil (ha : a ≠ .readSome) : u.next a [] = u := by
  cases u <;> cases a <;> first | rfl | contradiction

theorem next_wrote : u.next a [.wrote msg] = .unread := by cases u <;> rfl

theorem next_readSome : (u.next .readSome [] = .no ↔ u = .no) ∧ u.next .readSome [] ≠ .unread := by
  cases u <;> simp [Unread.next]

theorem WriterPc.Knows.frame (h : WriterPc.Knows p u w) (hcurrent : p'.currentUid = p.currentUid)
    (halready : p'.alreadyUid = p.alreadyUid) (hno : u = .no → u' = .no) : w.Knows p' u' := by
  unfold WriterPc.Knows at *
  rw [hcurrent, halready]
  cases w with
  | idle => trivial
  | testing a => exact h.imp_right fun ⟨hu, h⟩ => ⟨hno hu, h⟩
  | mayWrite => exact ⟨hno h.1, h.2⟩
  | copying | publishing => exact ⟨hno h.1, h.2⟩

theorem ReaderPc.Knows.frame (h : ReaderPc.Knows p u r) (hcurrent : p'.currentUid = p.currentUid) :
    r.Knows p' u := by
  unfold ReaderPc.Knows at *
  rw [hcurrent]
  exact h

theorem UnreadOk.writer_moves (h : UnreadOk ⟨p, some w, r⟩ u)
    (hcareful : w.isPublishing = true → r.any ReaderPc.isCopying = false) (hs : WriterMoves p w p' w' es) :
    UnreadOk ⟨p', some w', r⟩ (u.next .writer es) := by
  have hw := h.writer w rfl
  cases hs with
  | tests a =>
    rw [next_of_nil (a := .writer) nofun]
    refine ⟨h.current, h.already, h.readable, ?_, h.reader⟩
    rintro _ ⟨⟩
    split
    · rename_i ha
      obtain hload | ⟨hno, -, halready⟩ := hw
      · have heq := hload.symm.trans ha
        refine ⟨?_, .inl heq.symm⟩
        by_contra hno
        exact (h.readable hno).ne heq
      · exact ⟨hno, .inr halready⟩
    · trivial
  | copies | copied =>
    rw [next_of_nil (a := .writer) nofun]
    refine ⟨h.current, h.already, h.readable, ?_, fun r hr => (h.reader r hr).frame rfl⟩
    rintro _ ⟨⟩
    exact hw
  | publishes msg size crrt =>
    rw [next_wrote]
    obtain ⟨rfl, halready, hcrrt⟩ := hw
    obtain ⟨hcounter, hahead, hdropped⟩ := advance_ahead h.current hcrrt
    refine ⟨hcounter, h.already, fun _ => ?_, ?_, ?_⟩
    · show Ahead (advance crrt p.currentUid) p.alreadyUid
      obtain heq | heq := halready <;> rw [heq]
      · exact hahead
      · exact hdropped
    · rintro _ ⟨⟩
      trivial
    · rintro r' ⟨⟩
      have hr := h.reader r' rfl
      cases r' with
      | idle | testing | mayRead => trivial
      | copying => cases hcareful rfl
      | releasing str crrt' =>
        obtain ⟨hcrrt', heq⟩ := hr
        rw [if_neg nofun] at heq
        refine ⟨hcrrt', ?_⟩
        rw [if_pos rfl, heq]
        exact hahead

theorem WriterPc.Knows.store (h : WriterPc.Knows p u w)
    (hcrrt : if u = .unread then Ahead p.currentUid crrt else crrt = p.currentUid) :
    w.Knows { p with alreadyUid := crrt } (u.next .reader [.returned str]) := by
  cases w with
  | idle => trivial
  | testing a =>
    obtain ha | ⟨rfl, hc, -⟩ := h
    · exact .inl ha
    · exact .inr ⟨rfl, hc, Eq.trans hcrrt hc⟩
  | mayWrite =>
    obtain ⟨rfl, -⟩ := h
    exact ⟨rfl, .inl hcrrt⟩
  | copying | publishing =>
    obtain ⟨rfl, -, hload⟩ := h
    exact ⟨rfl, .inl hcrrt, hload⟩

theorem UnreadOk.reader_moves (h : UnreadOk ⟨p, w, some r⟩ u) (hs : ReaderMoves p r p' r' es) :
    UnreadOk ⟨p', w, some r'⟩ (u.next .reader es) := by
  have hr := h.reader r rfl
  cases hs with
  | tests a =>
    rw [next_of_nil (a := .reader) nofun]
    refine ⟨h.current, h.already, h.readable, h.writer, ?_⟩
    rintro _ ⟨⟩
    split <;> trivial
  | copies size str =>
    rw [next_of_nil (a := .reader) nofun]
    refine ⟨h.current, h.already, h.readable, h.writer, ?_⟩
    rintro _ ⟨⟩
    exact hr
  | copied size str =>
    rw [next_of_nil (a := .reader) nofun]
    refine ⟨h.current, h.already, h.readable, h.writer, ?_⟩
    rintro _ ⟨⟩
    refine ⟨h.current, ?_⟩
    rw [if_neg hr]
  | releases str crrt =>
    obtain ⟨hcrrt, hknows⟩ := hr
    refine ⟨h.current, hcrrt, fun hu => ?_, fun w hw => (h.writer w hw).store hknows, ?_⟩
    · cases u with
      | no | reading => exact absurd rfl hu
      | unread => exact hknows
    · rintro _ ⟨⟩
      trivial

theorem ReaderPc.Knows.not_releasing (h : ReaderPc.Knows p u r) (hreleasing : r.isReleasing = false) :
    r.Knows p' u := by
  cases r with
  | idle | testing | mayRead => trivial
  | copying => exact h
  | releasing => cases hreleasing

theorem WriterPc.Knows.dropped (h : WriterPc.Knows p u w) : w.Knows { p with alreadyUid := -1 } u := by
  cases w with
  | idle => trivial
  | testing a => exact h.imp_right fun ⟨hu, hc, _⟩ => ⟨hu, hc, rfl⟩
  | mayWrite => exact ⟨h.1, .inr rfl⟩
  | copying | publishing => exact ⟨h.1, .inr rfl, h.2.2⟩

theorem of_careful {r : Option ReaderPc} (h : (decide (u = .no) && !r.any ReaderPc.isReleasing) = true) :
    u = .no ∧ ∀ x ∈ r, x.isReleasing = false := by
  obtain ⟨hu, hr⟩ := Bool.and_eq_true_iff.mp h
  refine ⟨of_decide_eq_true hu, ?_⟩
  rintro x ⟨⟩
  simpa using hr

-- ---------------------------------------------------------------------------
-- Runs
-- ---------------------------------------------------------------------------

theorem freelockSmem_unread {data : Nat → UInt8} {s s' : Smem} (h : UnreadOk s u)
    (hcareful : Careful (s, u) a = true) (hs : (freelockSmem data).step s a = some (s', es)) :
    UnreadOk s' (u.next a es) := by
  obtain ⟨p, w, r⟩ := s
  cases freelockSmem_moves hs with
  | writable =>
    rw [next_of_nil (a := .writable) nofun]
    exact ⟨h.current, h.already, h.readable, fun _ hw => Option.some.inj hw ▸ .inl rfl, h.reader⟩
  | writeSome msg =>
    rw [next_of_nil (a := .writeSome msg) nofun]
    obtain ⟨hno, halready⟩ := h.writer .mayWrite rfl
    refine ⟨h.current, h.already, h.readable, ?_, h.reader⟩
    rintro _ ⟨⟩
    exact ⟨hno, halready, .inl rfl⟩
  | writer hstep =>
    refine h.writer_moves (fun hpublishing => ?_) hstep
    simpa [Careful, hpublishing] using hcareful
  | readable =>
    rw [next_of_nil (a := .readable) nofun]
    exact ⟨h.current, h.already, h.readable, h.writer, fun _ hr => Option.some.inj hr ▸ trivial⟩
  | readSome =>
    obtain ⟨hno, hunread⟩ := @next_readSome u
    refine ⟨h.current, h.already, fun hu => h.readable (mt hno.mpr hu), ?_, ?_⟩
    · exact fun w hw => (h.writer w hw).frame rfl rfl hno.mpr
    · rintro _ ⟨⟩
      exact hunread
  | reader hstep => exact h.reader_moves hstep
  | newWriter owner =>
    rw [next_of_nil (a := .newWriter owner) nofun]
    cases owner with
    | false => exact ⟨h.current, h.already, h.readable, fun _ hw => Option.some.inj hw ▸ trivial, h.reader⟩
    | true => cases hcareful
  | dropWriter =>
    obtain ⟨rfl, hreleasing⟩ := of_careful hcareful
    exact ⟨counter_init, h.already, nofun, nofun, fun r hr => (h.reader r hr).not_releasing (hreleasing r hr)⟩
  | newReader owner =>
    rw [next_of_nil (a := .newReader owner) nofun]
    cases owner with
    | false => exact ⟨h.current, h.already, h.readable, h.writer, fun _ hr => Option.some.inj hr ▸ trivial⟩
    | true => cases hcareful
  | dropReader =>
    rw [next_of_nil (a := .dropReader) nofun]
    exact ⟨h.current, counter_init, fun hu => (h.readable hu).of_dropped h.already,
      fun w hw => (h.writer w hw).dropped, nofun⟩

theorem smem_unread_inv {data : Nat → UInt8}
    (h : (freelockSmemUnread data).RunIf (fun s a => Careful s a = true) tr s) : UnreadOk s.1 s.2 := by
  refine h.state_invariant (I := fun s => UnreadOk s.1 s.2) ?_ ?_
  · refine ⟨counter_init, counter_init, fun hu => absurd rfl hu, ?_, ?_⟩
    · exact fun _ hw => Option.some.inj hw ▸ trivial
    · exact fun _ hr => Option.some.inj hr ▸ trivial
  · rintro ⟨s, u⟩ a ⟨s', u'⟩ es hinv hcareful hs
    obtain ⟨hstep, rfl⟩ := Machine.step_of_watch hs
    exact freelockSmem_unread hinv hcareful hstep

theorem smem_stays_readable (data : Nat → UInt8) (tr : List SmemEv) (s : Smem) (u : Unread)
    (h : (freelockSmemUnread data).RunIf (fun s a => Careful s a = true) tr (s, u)) (hunread : u ≠ .no) :
    s.page.readable := (smem_unread_inv h).readable hunread

theorem smem_stays_readable_run : ∃ tr s u,
    (freelockSmemUnread fun _ => 0).RunIf (fun s a => Careful s a = true) tr (s, u) ∧
      tr = [.wrote [72], .returned [72], .wrote [33]] ∧ u = .reading ∧ s.page.readable := by
  have hr : (((freelockSmemUnread fun _ => 0).only fun s a => Careful s a = true).replay
      (freelockSmemUnread fun _ => 0).init
      [.writable, .writer, .writeSome [72], .writer, .writer, .writer, .readable, .reader, .readSome, .reader,
        .reader, .reader, .dropWriter, .dropReader, .newWriter false, .newReader false, .writable, .writer,
        .writeSome [33], .writer, .writer, .writer, .dropReader, .newReader false, .readable, .reader,
        .readSome, .reader]).isSome := rfl
  have hrun := Machine.steps_of_replay_only (Option.some_get hr).symm
  exact ⟨_, _, _, hrun, rfl, rfl, smem_stays_readable _ _ _ _ hrun nofun⟩

/-- The writer writes and is destroyed; the message is not readable then. -/
theorem smem_message_lost : ∃ tr s u, (freelockSmemUnread fun _ => 0).Run tr (s, u) ∧
    tr = [.wrote [72]] ∧ u = .unread ∧ ¬s.page.readable := by
  have hr : ((freelockSmemUnread fun _ => 0).replay (freelockSmemUnread fun _ => 0).init
      [.writable, .writer, .writeSome [72], .writer, .writer, .writer, .dropWriter]).isSome := rfl
  exact ⟨_, _, _, Machine.steps_of_replay (Option.some_get hr).symm, rfl, rfl, fun h => h.ne rfl⟩

end

end Andren.Network
