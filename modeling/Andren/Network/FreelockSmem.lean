import Andren.Machine.Channel

/-!
# The lock-free shared memory channel

A writer and a reader share a page: two `int8` counters, a size and 4096
bytes. The writer writes when the counters are equal and then advances
`currentUid`; the reader reads when `currentUid` is ahead and then copies it
into `alreadyUid`. The counters start at -1, skip from 127 to 1 and never
come back to 0. Both sides run one memory access at a time, in any
interleaving.

`SmemOk` is the invariant: the counters are equal or successive, and which of
the two tells whose turn the page is. With it the page refines a channel that
holds at most one message.
-/

namespace Andren.Network

open Machines

def shmemSizeDefault : Nat := 4096

def int8Max : Int := 127

structure ShData where
  currentUid : Int
  alreadyUid : Int
  size : Nat
  data : Nat → UInt8

def ShData.bytes (p : ShData) : List UInt8 := (List.range p.size).map p.data

/-- What the counter update at the end of `write_some` stores, given the value
loaded at its beginning: `exchange(1)` after `INT8_MAX`, else `fetch_add(1)`. -/
def advance (crrt currentUid : Int) : Int :=
  if crrt = int8Max then 1 else (currentUid + 1).bmod 256

inductive WriterPc
  | idle
  | testing (a : Int)
  | mayWrite
  /-- `write_some` copies byte `i`. -/
  | copying (msg : List UInt8) (size : Nat) (crrt : Int) (i : Nat)
  /-- `write_some` has stored the size and is about to advance the counter. -/
  | publishing (msg : List UInt8) (size : Nat) (crrt : Int)

inductive ReaderPc
  | idle
  | testing (a : Int)
  | mayRead
  | copying (size : Nat) (str : List UInt8)
  /-- `read_some` has loaded `currentUid` and is about to store it. -/
  | releasing (str : List UInt8) (crrt : Int)

/-- The writer is between its test and its counter update, so that it may
change the page. -/
def WriterPc.writing : WriterPc → Prop
  | .copying .. | .publishing .. => True
  | _ => False

def ReaderPc.reading : ReaderPc → Prop
  | .copying .. | .releasing .. => True
  | _ => False

structure Smem where
  page : ShData
  writer : Option WriterPc
  reader : Option ReaderPc

inductive SmemAct
  | writable
  | writeSome (data : List UInt8)
  | writer
  | readable
  | readSome
  | reader
  | newWriter (owner : Bool)
  | dropWriter
  | newReader (owner : Bool)
  | dropReader

inductive SmemEv
  | wrote (msg : List UInt8)
  | returned (str : List UInt8)

def ShData.reset (p : ShData) : ShData := { p with currentUid := -1, alreadyUid := -1, size := 0 }

def writerStep (p : ShData) : WriterPc → Option (ShData × WriterPc × List SmemEv)
  | .idle | .mayWrite => none
  | .testing a => some (p, if a = p.alreadyUid then .mayWrite else .idle, [])
  | .copying msg size crrt i =>
    if i < size then do
      let c ← msg[i]?
      if i < shmemSizeDefault then
        pure ({ p with data := Function.update p.data i c }, .copying msg size crrt (i + 1), [])
      else none
    else some ({ p with size := size }, .publishing msg size crrt, [])
  | .publishing msg _ crrt =>
    some ({ p with currentUid := advance crrt p.currentUid }, .idle, [.wrote msg])

def readerStep (p : ShData) : ReaderPc → Option (ShData × ReaderPc × List SmemEv)
  | .idle | .mayRead => none
  | .testing a =>
    let b := p.alreadyUid
    some (p, if a > b ∨ (b = int8Max ∧ a = 1) then .mayRead else .idle, [])
  | .copying size str =>
    if str.length < size then
      if str.length < shmemSizeDefault then
        some (p, .copying size (str ++ [p.data str.length]), [])
      else none
    else some (p, .releasing str p.currentUid, [])
  | .releasing str crrt => some ({ p with alreadyUid := crrt }, .idle, [.returned str])

/-- The channel. A byte out of range is no step, and so is a call the clients
do not make: `write_some` and `read_some` each follow a test that returned
true, and an object is destroyed between calls. The name leads to one page
throughout, as it does while the owner of the page is not destroyed. -/
def freelockSmem (data : Nat → UInt8) : Machine Smem SmemAct SmemEv where
  init := ⟨ShData.reset ⟨0, 0, 0, data⟩, some .idle, some .idle⟩
  step s
    | .writable => match s.writer with
      | some .idle | some .mayWrite =>
        some ({ s with writer := some (.testing s.page.currentUid) }, [])
      | _ => none
    | .writeSome msg => match s.writer with
      | some .mayWrite =>
        let size := min shmemSizeDefault msg.length
        some ({ s with writer := some (.copying msg size s.page.currentUid 0) }, [])
      | _ => none
    | .writer => do
      let (p, pc, es) ← writerStep s.page (← s.writer)
      pure ({ s with page := p, writer := some pc }, es)
    | .readable => match s.reader with
      | some .idle | some .mayRead =>
        some ({ s with reader := some (.testing s.page.currentUid) }, [])
      | _ => none
    | .readSome => match s.reader with
      | some .mayRead => some ({ s with reader := some (.copying s.page.size []) }, [])
      | _ => none
    | .reader => do
      let (p, pc, es) ← readerStep s.page (← s.reader)
      pure ({ s with page := p, reader := some pc }, es)
    | .newWriter owner => match s.writer with
      | none => some ({ s with page := if owner then s.page.reset else s.page, writer := some .idle }, [])
      | some _ => none
    | .dropWriter => match s.writer with
      | some .idle | some .mayWrite =>
        some ({ s with page := { s.page with currentUid := -1 }, writer := none }, [])
      | _ => none
    | .newReader owner => match s.reader with
      | none => some ({ s with page := if owner then s.page.reset else s.page, reader := some .idle }, [])
      | some _ => none
    | .dropReader => match s.reader with
      | some .idle | some .mayRead =>
        some ({ s with page := { s.page with alreadyUid := -1 }, reader := none }, [])
      | _ => none

/-- The calls on a writer and a reader that stay attached. -/
def Attached (_ : Smem) : SmemAct → Prop
  | .newWriter _ | .dropWriter | .newReader _ | .dropReader => False
  | _ => True

instance (s : Smem) : (a : SmemAct) → Decidable (Attached s a)
  | .writable | .writeSome _ | .writer | .readable | .readSome | .reader => .isTrue trivial
  | .newWriter _ | .dropWriter | .newReader _ | .dropReader => .isFalse id

-- ---------------------------------------------------------------------------
-- What a step does
-- ---------------------------------------------------------------------------

inductive WriterMoves (p : ShData) : WriterPc → ShData → WriterPc → List SmemEv → Prop
  | tests (a : Int) : WriterMoves p (.testing a) p (if a = p.alreadyUid then .mayWrite else .idle) []
  | copies (msg : List UInt8) (size : Nat) (crrt : Int) (i : Nat) (c : UInt8) (hlt : i < size)
      (hc : msg[i]? = some c) : WriterMoves p (.copying msg size crrt i)
        { p with data := Function.update p.data i c } (.copying msg size crrt (i + 1)) []
  | copied (msg : List UInt8) (size : Nat) (crrt : Int) (i : Nat) (hge : ¬i < size) :
      WriterMoves p (.copying msg size crrt i) { p with size := size } (.publishing msg size crrt) []
  | publishes (msg : List UInt8) (size : Nat) (crrt : Int) : WriterMoves p (.publishing msg size crrt)
      { p with currentUid := advance crrt p.currentUid } .idle [.wrote msg]

inductive ReaderMoves (p : ShData) : ReaderPc → ShData → ReaderPc → List SmemEv → Prop
  | tests (a : Int) : ReaderMoves p (.testing a) p
      (if a > p.alreadyUid ∨ (p.alreadyUid = int8Max ∧ a = 1) then .mayRead else .idle) []
  | copies (size : Nat) (str : List UInt8) (hlt : str.length < size) :
      ReaderMoves p (.copying size str) p (.copying size (str ++ [p.data str.length])) []
  | copied (size : Nat) (str : List UInt8) (hge : ¬str.length < size) :
      ReaderMoves p (.copying size str) p (.releasing str p.currentUid) []
  | releases (str : List UInt8) (crrt : Int) :
      ReaderMoves p (.releasing str crrt) { p with alreadyUid := crrt } .idle [.returned str]

inductive SmemMoves (p : ShData) : Option WriterPc → Option ReaderPc → SmemAct → Smem → List SmemEv → Prop
  | writable {w : WriterPc} {r} (hw : ¬w.writing) :
      SmemMoves p (some w) r .writable ⟨p, some (.testing p.currentUid), r⟩ []
  | writeSome {r} (msg : List UInt8) : SmemMoves p (some .mayWrite) r (.writeSome msg)
      ⟨p, some (.copying msg (min shmemSizeDefault msg.length) p.currentUid 0), r⟩ []
  | writer {w p' w' r es} (hs : WriterMoves p w p' w' es) :
      SmemMoves p (some w) r .writer ⟨p', some w', r⟩ es
  | readable {w} {r : ReaderPc} (hr : ¬r.reading) :
      SmemMoves p w (some r) .readable ⟨p, w, some (.testing p.currentUid)⟩ []
  | readSome {w} : SmemMoves p w (some .mayRead) .readSome ⟨p, w, some (.copying p.size [])⟩ []
  | reader {w r p' r' es} (hs : ReaderMoves p r p' r' es) :
      SmemMoves p w (some r) .reader ⟨p', w, some r'⟩ es
  | newWriter {r} (owner : Bool) :
      SmemMoves p none r (.newWriter owner) ⟨if owner then p.reset else p, some .idle, r⟩ []
  | dropWriter {w : WriterPc} {r} : SmemMoves p (some w) r .dropWriter ⟨{ p with currentUid := -1 }, none, r⟩ []
  | newReader {w} (owner : Bool) :
      SmemMoves p w none (.newReader owner) ⟨if owner then p.reset else p, w, some .idle⟩ []
  | dropReader {w} {r : ReaderPc} : SmemMoves p w (some r) .dropReader ⟨{ p with alreadyUid := -1 }, w, none⟩ []

theorem writerStep_moves (hs : writerStep p w = some (p', w', es)) : WriterMoves p w p' w' es := by
  cases w with
  | idle | mayWrite => cases hs
  | testing a =>
    cases hs
    exact .tests a
  | copying msg size crrt i =>
    simp only [writerStep] at hs
    split at hs
    · rename_i hlt
      simp only [Option.bind_eq_bind, Option.bind_eq_some_iff, Option.ite_none_right_eq_some] at hs
      obtain ⟨c, hc, -, hs⟩ := hs
      cases hs
      exact .copies msg size crrt i c hlt hc
    · rename_i hge
      cases hs
      exact .copied msg size crrt i hge
  | publishing msg size crrt =>
    cases hs
    exact .publishes msg size crrt

theorem readerStep_moves (hs : readerStep p r = some (p', r', es)) : ReaderMoves p r p' r' es := by
  cases r with
  | idle | mayRead => cases hs
  | testing a =>
    cases hs
    exact .tests a
  | copying size str =>
    simp only [readerStep] at hs
    split at hs
    · rename_i hlt
      obtain ⟨-, hs⟩ := Option.ite_none_right_eq_some.mp hs
      cases hs
      exact .copies size str hlt
    · rename_i hge
      cases hs
      exact .copied size str hge
  | releasing str crrt =>
    cases hs
    exact .releases str crrt

theorem freelockSmem_moves {data : Nat → UInt8} (hs : (freelockSmem data).step ⟨p, w, r⟩ a = some (s', es)) :
    SmemMoves p w r a s' es := by
  cases a with
  | writable =>
    simp only [freelockSmem] at hs
    split at hs
    all_goals first | cases hs; exact .writable id | cases hs
  | writeSome msg =>
    simp only [freelockSmem] at hs
    split at hs
    · cases hs
      exact .writeSome msg
    · cases hs
  | writer =>
    obtain ⟨w, rfl, hs⟩ := Option.bind_eq_some_iff.mp hs
    obtain ⟨⟨p', w', es'⟩, hstep, hs⟩ := Option.bind_eq_some_iff.mp hs
    cases hs
    exact .writer (writerStep_moves hstep)
  | readable =>
    simp only [freelockSmem] at hs
    split at hs
    all_goals first | cases hs; exact .readable id | cases hs
  | readSome =>
    simp only [freelockSmem] at hs
    split at hs
    · cases hs
      exact .readSome
    · cases hs
  | reader =>
    obtain ⟨r, rfl, hs⟩ := Option.bind_eq_some_iff.mp hs
    obtain ⟨⟨p', r', es'⟩, hstep, hs⟩ := Option.bind_eq_some_iff.mp hs
    cases hs
    exact .reader (readerStep_moves hstep)
  | newWriter owner =>
    simp only [freelockSmem] at hs
    split at hs
    · cases hs
      exact .newWriter owner
    · cases hs
  | dropWriter =>
    simp only [freelockSmem] at hs
    split at hs
    all_goals first | cases hs; exact .dropWriter | cases hs
  | newReader owner =>
    simp only [freelockSmem] at hs
    split at hs
    · cases hs
      exact .newReader owner
    · cases hs
  | dropReader =>
    simp only [freelockSmem] at hs
    split at hs
    all_goals first | cases hs; exact .dropReader | cases hs

-- ---------------------------------------------------------------------------
-- The counters
-- ---------------------------------------------------------------------------

def Counter (c : Int) : Prop := -1 ≤ c ∧ c ≤ int8Max

def succUid (c : Int) : Int := if c = int8Max then 1 else c + 1

theorem counter_init : Counter (-1) := by
  unfold Counter int8Max
  omega

theorem Counter.succ (h : Counter c) : Counter (succUid c) := by
  unfold Counter succUid int8Max at *
  split <;> omega

theorem succUid_ne (c : Int) : succUid c ≠ c := by
  unfold succUid int8Max
  split <;> omega

theorem advance_eq (h : Counter c) : advance c c = succUid c := by
  obtain ⟨hlo, hhi⟩ := h
  unfold advance succUid int8Max at *
  split
  · rfl
  · exact Int.bmod_eq_of_le (by omega) (by omega)

theorem not_ahead_self (c : Int) : ¬(c > c ∨ (c = int8Max ∧ c = 1)) := by
  unfold int8Max
  omega

-- ---------------------------------------------------------------------------
-- The invariant
-- ---------------------------------------------------------------------------

structure PageOk (p : ShData) : Prop where
  current : Counter p.currentUid
  turn : p.currentUid = p.alreadyUid ∨ p.currentUid = succUid p.alreadyUid
  size_le : p.size ≤ shmemSizeDefault

/-- What the writer knows of the page. From `mayWrite` on the page is its own. -/
def WriterOk (p : ShData) : WriterPc → Prop
  | .idle => True
  | .testing a => a = p.currentUid
  | .mayWrite => p.currentUid = p.alreadyUid
  | .copying msg size crrt i => p.currentUid = p.alreadyUid ∧ crrt = p.currentUid ∧
      size = min shmemSizeDefault msg.length ∧ i ≤ size ∧ ∀ j < i, msg[j]? = some (p.data j)
  | .publishing msg _ crrt => p.currentUid = p.alreadyUid ∧ crrt = p.currentUid ∧
      p.bytes = msg.take shmemSizeDefault

/-- What the reader knows of the page. From `mayRead` on the page is its own.
A test may have loaded the counter before the writer advanced it. -/
def ReaderOk (p : ShData) : ReaderPc → Prop
  | .idle => True
  | .testing a => a = p.currentUid ∨ a = p.alreadyUid
  | .mayRead => p.currentUid ≠ p.alreadyUid
  | .copying size str => p.currentUid ≠ p.alreadyUid ∧ size = p.size ∧ str.length ≤ size ∧
      str = p.bytes.take str.length
  | .releasing str crrt => p.currentUid ≠ p.alreadyUid ∧ crrt = p.currentUid ∧ str = p.bytes

structure SmemOk (s : Smem) : Prop where
  page : PageOk s.page
  writer : ∃ w, s.writer = some w ∧ WriterOk s.page w
  reader : ∃ r, s.reader = some r ∧ ReaderOk s.page r

def ShData.pending (p : ShData) : List (List UInt8) :=
  if p.currentUid = p.alreadyUid then [] else [p.bytes]

def SmemEv.obs : SmemEv → List (ChanEv Unit (List UInt8))
  | .wrote msg => [.put () (msg.take shmemSizeDefault)]
  | .returned str => [.got () str]

theorem pending_of_eq {p : ShData} (h : p.currentUid = p.alreadyUid) : p.pending = [] := if_pos h

theorem pending_of_ne {p : ShData} (h : p.currentUid ≠ p.alreadyUid) : p.pending = [p.bytes] :=
  if_neg h

theorem length_bytes (p : ShData) : p.bytes.length = p.size := by simp [ShData.bytes]

theorem bytes_eq_take {p : ShData} {msg : List UInt8} (hsize : p.size = min shmemSizeDefault msg.length)
    (h : ∀ j < p.size, msg[j]? = some (p.data j)) : p.bytes = msg.take shmemSizeDefault := by
  apply List.ext_getElem?
  intro j
  rcases Nat.lt_or_ge j p.size with hj | hj
  · rw [List.getElem?_take_of_lt (by omega), h j hj]
    simp [ShData.bytes, hj]
  · rw [List.getElem?_eq_none (by rw [length_bytes]; exact hj), List.getElem?_eq_none]
    rw [List.length_take]
    omega

/-- While the counters are equal the reader reads nothing of the page, so the
writer may change it. -/
theorem ReaderOk.writer_turn {p p' : ShData} (h : ReaderOk p r) (heq : p.currentUid = p.alreadyUid)
    (halready : p'.alreadyUid = p.alreadyUid) : ReaderOk p' r := by
  cases r with
  | idle => trivial
  | testing a => exact .inr (halready ▸ h.elim (fun h => h.trans heq) id)
  | mayRead => exact absurd heq h
  | copying size str => exact absurd heq h.1
  | releasing str crrt => exact absurd heq h.1

/-- While the counters differ the writer is not past its test, so the reader
may advance its counter. -/
theorem WriterOk.reader_turn {p p' : ShData} (h : WriterOk p w) (hne : p.currentUid ≠ p.alreadyUid)
    (hcurrent : p'.currentUid = p.currentUid) : WriterOk p' w := by
  cases w with
  | idle => trivial
  | testing a => exact h.trans hcurrent.symm
  | mayWrite => exact absurd h hne
  | copying msg size crrt i => exact absurd h.1 hne
  | publishing msg size crrt => exact absurd h.1 hne

abbrev Chan := channels Unit (List UInt8)

theorem WriterOk.moves (hp : PageOk p) (hw : WriterOk p w) (hs : WriterMoves p w p' w' es) :
    PageOk p' ∧ WriterOk p' w' ∧ (∀ r, ReaderOk p r → ReaderOk p' r) ∧
      Chan.Steps Machine.anyStep (fun _ => p.pending) (es.flatMap SmemEv.obs) fun _ => p'.pending := by
  cases hs with
  | tests a =>
    refine ⟨hp, ?_, fun _ => id, .refl⟩
    split
    · rename_i ha
      exact Eq.trans (Eq.symm hw) ha
    · trivial
  | copies msg size crrt i c hlt hc =>
    obtain ⟨heq, hcrrt, hsize, hi, hmsg⟩ := hw
    refine ⟨⟨hp.current, hp.turn, hp.size_le⟩, ⟨heq, hcrrt, hsize, hlt, ?_⟩,
      fun r hr => hr.writer_turn heq rfl, ?_⟩
    · intro j hj
      rcases Nat.lt_succ_iff_lt_or_eq.mp hj with hj | rfl
      · simpa [Function.update_of_ne (Nat.ne_of_lt hj)] using hmsg j hj
      · simpa using hc
    · rw [pending_of_eq heq, pending_of_eq (by exact heq)]
      exact .refl
  | copied msg size crrt i hge =>
    obtain ⟨heq, hcrrt, hsize, hi, hmsg⟩ := hw
    have hfull : i = size := by omega
    subst hfull
    refine ⟨⟨hp.current, hp.turn, ?_⟩, ⟨heq, hcrrt, bytes_eq_take hsize hmsg⟩,
      fun r hr => hr.writer_turn heq rfl, ?_⟩
    · simp only
      omega
    · rw [pending_of_eq heq, pending_of_eq (by exact heq)]
      exact .refl
  | publishes msg size crrt =>
    obtain ⟨heq, rfl, hbytes⟩ := hw
    rw [advance_eq hp.current]
    refine ⟨⟨hp.current.succ, .inr (congrArg succUid heq), hp.size_le⟩, trivial,
      fun r hr => hr.writer_turn heq rfl, ?_⟩
    have hne : succUid p.currentUid ≠ p.alreadyUid := heq ▸ succUid_ne _
    rw [pending_of_eq heq, pending_of_ne (by exact hne)]
    exact hbytes ▸ channel_put [] _

theorem ReaderOk.moves (hp : PageOk p) (hr : ReaderOk p r) (hs : ReaderMoves p r p' r' es) :
    PageOk p' ∧ ReaderOk p' r' ∧ (∀ w, WriterOk p w → WriterOk p' w) ∧
      Chan.Steps Machine.anyStep (fun _ => p.pending) (es.flatMap SmemEv.obs) fun _ => p'.pending := by
  cases hs with
  | tests a =>
    refine ⟨hp, ?_, fun _ => id, .refl⟩
    split
    · rename_i hahead
      rcases hr with rfl | rfl
      · intro heq
        rw [heq] at hahead
        exact not_ahead_self _ hahead
      · exact absurd hahead (not_ahead_self _)
    · trivial
  | copies size str hlt =>
    obtain ⟨hne, rfl, hle, hstr⟩ := hr
    refine ⟨hp, ⟨hne, rfl, ?_, ?_⟩, fun _ => id, .refl⟩
    · simp only [List.length_append, List.length_singleton]
      omega
    · rw [List.length_append, List.length_singleton, List.take_add_one, ← hstr]
      simp [ShData.bytes, hlt]
  | copied size str hge =>
    obtain ⟨hne, rfl, hle, hstr⟩ := hr
    refine ⟨hp, ⟨hne, rfl, ?_⟩, fun _ => id, .refl⟩
    rw [hstr, List.take_of_length_le (by rw [length_bytes]; omega)]
  | releases str crrt =>
    obtain ⟨hne, rfl, rfl⟩ := hr
    refine ⟨⟨hp.current, .inl rfl, hp.size_le⟩, trivial, fun w hw => hw.reader_turn hne rfl, ?_⟩
    rw [pending_of_ne hne, pending_of_eq (by rfl)]
    exact channel_gets (List.append_nil [p.bytes]).symm

-- ---------------------------------------------------------------------------
-- The channel of one message
-- ---------------------------------------------------------------------------

/-- One step of either side keeps the invariant, and is so many steps of the
channel. The calls themselves only load a counter or a size. -/
theorem freelockSmem_step {data : Nat → UInt8} {s s' : Smem} (h : SmemOk s) (hok : Attached s a)
    (hs : (freelockSmem data).step s a = some (s', es)) :
    SmemOk s' ∧ Chan.Steps Machine.anyStep (fun _ => s.page.pending) (es.flatMap SmemEv.obs)
      fun _ => s'.page.pending := by
  obtain ⟨p, _, _⟩ := s
  obtain ⟨hp, ⟨w, rfl, hw⟩, ⟨r, rfl, hr⟩⟩ := h
  cases freelockSmem_moves hs with
  | writable => exact ⟨⟨hp, ⟨_, rfl, rfl⟩, ⟨_, rfl, hr⟩⟩, .refl⟩
  | writeSome msg =>
    refine ⟨⟨hp, ⟨_, rfl, hw, rfl, rfl, Nat.zero_le _, ?_⟩, ⟨_, rfl, hr⟩⟩, .refl⟩
    intro j hj
    omega
  | writer hstep =>
    obtain ⟨hp', hw', hr', hchan⟩ := hw.moves hp hstep
    exact ⟨⟨hp', ⟨_, rfl, hw'⟩, ⟨_, rfl, hr' r hr⟩⟩, hchan⟩
  | readable => exact ⟨⟨hp, ⟨_, rfl, hw⟩, ⟨_, rfl, .inl rfl⟩⟩, .refl⟩
  | readSome => exact ⟨⟨hp, ⟨_, rfl, hw⟩, ⟨_, rfl, hr, rfl, Nat.zero_le _, rfl⟩⟩, .refl⟩
  | reader hstep =>
    obtain ⟨hp', hr', hw', hchan⟩ := hr.moves hp hstep
    exact ⟨⟨hp', ⟨_, rfl, hw' w hw⟩, ⟨_, rfl, hr'⟩⟩, hchan⟩
  | dropWriter | dropReader => exact hok.elim

def freelockSmem_refines (data : Nat → UInt8) : Refinement (freelockSmem data) Chan Attached where
  obs := SmemEv.obs
  abs s := fun _ => s.page.pending
  inv := SmemOk
  init_inv :=
    { page := ⟨counter_init, .inl rfl, Nat.zero_le _⟩
      writer := ⟨_, rfl, trivial⟩
      reader := ⟨_, rfl, trivial⟩ }
  init_abs := funext fun _ => pending_of_eq rfl
  step_inv h hok hs := (freelockSmem_step h hok hs).1
  step_abs h hok hs := (freelockSmem_step h hok hs).2

def written : List SmemEv → List (List UInt8)
  | [] => []
  | .wrote msg :: tr => msg.take shmemSizeDefault :: written tr
  | .returned _ :: tr => written tr

def returned : List SmemEv → List (List UInt8)
  | [] => []
  | .wrote _ :: tr => returned tr
  | .returned str :: tr => str :: returned tr

theorem puts_smemObs (tr : List SmemEv) : puts () (tr.flatMap SmemEv.obs) = written tr := by
  induction tr with
  | nil => rfl
  | cons e tr ih => cases e <;> simp [SmemEv.obs, written, puts, ih]

theorem gots_smemObs (tr : List SmemEv) : gots () (tr.flatMap SmemEv.obs) = returned tr := by
  induction tr with
  | nil => rfl
  | cons e tr ih => cases e <;> simp [SmemEv.obs, returned, gots, ih]

theorem written_eq {data : Nat → UInt8} (h : (freelockSmem data).RunIf Attached tr s) :
    written tr = returned tr ++ s.page.pending := by
  have hfifo := channels_fifo ((freelockSmem_refines data).run h) ()
  rwa [show (freelockSmem_refines data).obs = SmemEv.obs from rfl, puts_smemObs, gots_smemObs]
    at hfifo

theorem length_pending_le (p : ShData) : p.pending.length ≤ 1 := by
  unfold ShData.pending
  split <;> simp

theorem SmemOk.exclusive (h : SmemOk s) (hw : s.writer = some w) (hr : s.reader = some r)
    (hwriting : w.writing) : ¬r.reading := by
  obtain ⟨w', hw', hwok⟩ := h.writer
  obtain ⟨r', hr', hrok⟩ := h.reader
  obtain rfl : w = w' := Option.some.inj (hw.symm.trans hw')
  obtain rfl : r = r' := Option.some.inj (hr.symm.trans hr')
  intro hreading
  have heq : s.page.currentUid = s.page.alreadyUid := by
    cases w <;> first | exact hwok.1 | exact hwriting.elim
  cases r <;> first | exact hrok.1 heq | exact hreading.elim

/-- Inside a call neither side is stuck: no byte it touches is out of range. -/
theorem SmemOk.steps (h : SmemOk s) :
    (∀ w, s.writer = some w → w.writing → (writerStep s.page w).isSome) ∧
      ∀ r, s.reader = some r → r.reading → (readerStep s.page r).isSome := by
  obtain ⟨w', hw', hwok⟩ := h.writer
  obtain ⟨r', hr', hrok⟩ := h.reader
  refine ⟨fun w hw hwriting => ?_, fun r hr hreading => ?_⟩
  · obtain rfl : w = w' := Option.some.inj (hw.symm.trans hw')
    cases w with
    | copying msg size crrt i =>
      obtain ⟨-, -, hsize, -, -⟩ := hwok
      simp only [writerStep]
      split
      · have hmsg : i < msg.length := by omega
        have hdata : i < shmemSizeDefault := by omega
        simp [hmsg, hdata]
      · rfl
    | publishing => rfl
    | _ => exact hwriting.elim
  · obtain rfl : r = r' := Option.some.inj (hr.symm.trans hr')
    cases r with
    | copying size str =>
      obtain ⟨-, hsize, -, -⟩ := hrok
      have := h.page.size_le
      simp only [readerStep]
      split
      · have hdata : str.length < shmemSizeDefault := by omega
        simp [hdata]
      · rfl
    | releasing => rfl
    | _ => exact hreading.elim

/-- Over any number of messages the reader returns what was written, at most
one message behind, and never reads the page while the writer changes it. -/
theorem freelockSmem_exactly_once (data : Nat → UInt8) (tr : List SmemEv) (s : Smem)
    (h : (freelockSmem data).RunIf Attached tr s) :
    returned tr <+: written tr ∧ (written tr).length ≤ (returned tr).length + 1 ∧
      (∀ w r, s.writer = some w → s.reader = some r → w.writing → ¬r.reading) ∧
      (∀ w, s.writer = some w → w.writing → (writerStep s.page w).isSome) ∧
      ∀ r, s.reader = some r → r.reading → (readerStep s.page r).isSome := by
  have hinv : SmemOk s := (freelockSmem_refines data).run_inv h
  have hw := written_eq h
  refine ⟨⟨_, hw.symm⟩, ?_, fun w r => hinv.exclusive, hinv.steps⟩
  have := length_pending_le s.page
  rw [hw, List.length_append]
  omega

theorem freelockSmem_exactly_once_run : ∃ tr s, (freelockSmem fun _ => 0).RunIf Attached tr s ∧
    written tr = [[72, 105], [33]] ∧ returned tr <+: [[72, 105], [33]] ∧
    2 ≤ (returned tr).length + 1 := by
  have hr : (((freelockSmem fun _ => 0).only Attached).replay (freelockSmem fun _ => 0).init
      [.writable, .writer, .writeSome [72, 105], .writer, .readable, .writer, .reader, .writer, .writer,
        .readable, .reader, .readSome, .reader, .reader, .reader, .reader,
        .writable, .writer, .writeSome [33], .writer, .readable, .writer, .writer]).isSome := rfl
  have hrun := Machine.steps_of_replay_only (Option.some_get hr).symm
  have h := freelockSmem_exactly_once (fun _ => 0) _ _ hrun
  exact ⟨_, _, hrun, rfl, h.1, h.2.1⟩

end Andren.Network
