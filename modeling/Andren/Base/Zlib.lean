import Mathlib.Data.List.Infix

/-!
# zlib

The part of zlib that the streams use. A call takes bytes from the front of the
input and puts bytes out while there is space. `Deflates` and `Inflates` say what
zlib promises of streams with any history of such calls, for a format that tells
which bytes are the complete stream of which data.
-/

namespace Andren.Base

abbrev Bytes := List UInt8

def Z_OK : Int := 0
def Z_STREAM_END : Int := 1
def Z_DATA_ERROR : Int := -3

def Failing (ret : Int) : Prop := ret ≠ Z_OK ∧ ret ≠ Z_STREAM_END

instance (ret : Int) : Decidable (Failing ret) := inferInstanceAs (Decidable (_ ∧ _))

inductive ZFlush
  | Z_NO_FLUSH
  | Z_FINISH

/-- `next_in` are the `avail_in` bytes that it points to. -/
structure ZStream (σ : Type u) where
  state : σ
  next_in : Bytes
  avail_out : Nat

/-- The stream after a call, the bytes the call put out, and what it returned. -/
structure ZCall (σ : Type u) where
  stream : ZStream σ
  out : Bytes
  ret : Int

/-- `deflateInit` of a stream that is all zero, `deflate` and `deflateEnd`, or the
same three of `inflate`. -/
structure ZFunctions (σ : Type u) where
  init : ZStream σ × Int
  run : ZStream σ → ZFlush → ZCall σ
  close : ZStream σ → ZStream σ × Int

namespace ZFunctions

/-- The streams in this state have consumed `x` and put out `y`, in calls that
found input and space and did not flush. -/
inductive Fed (z : ZFunctions σ) : σ → Bytes → Bytes → Prop
  | init : Fed z z.init.1.state [] []
  | run {s : ZStream σ} : Fed z s.state x y → s.next_in ≠ [] → 0 < s.avail_out →
      s.next_in = used ++ (z.run s .Z_NO_FLUSH).stream.next_in →
      Fed z (z.run s .Z_NO_FLUSH).stream.state (x ++ used) (y ++ (z.run s .Z_NO_FLUSH).out)

/-- The same of calls that may have found no space. -/
inductive Ran (z : ZFunctions σ) : σ → Bytes → Bytes → Prop
  | init : Ran z z.init.1.state [] []
  | run {s : ZStream σ} : Ran z s.state x y → s.next_in ≠ [] →
      s.next_in = used ++ (z.run s .Z_NO_FLUSH).stream.next_in →
      Ran z (z.run s .Z_NO_FLUSH).stream.state (x ++ used) (y ++ (z.run s .Z_NO_FLUSH).out)

theorem Fed.ran {z : ZFunctions σ} (h : z.Fed st x y) : z.Ran st x y := by
  induction h with
  | init => exact .init
  | run _ hin _ hused ih => exact .run ih hin hused

/-- After that there may have been calls with `Z_FINISH`, which did not end it. -/
inductive Finishing (z : ZFunctions σ) : σ → Bytes → Bytes → Prop
  | fed : z.Fed st x y → Finishing z st x y
  | run {s : ZStream σ} : Finishing z s.state x y → s.next_in = [] → 0 < s.avail_out →
      (z.run s .Z_FINISH).ret ≠ Z_STREAM_END →
      Finishing z (z.run s .Z_FINISH).stream.state x (y ++ (z.run s .Z_FINISH).out)

/-- A call moves `next_in` on, and takes from `avail_out` what it puts out. -/
structure Advances (z : ZFunctions σ) : Prop where
  next_in : ∀ s flush, (z.run s flush).stream.next_in <:+ s.next_in
  avail_out : ∀ s flush, (z.run s flush).out.length + (z.run s flush).stream.avail_out = s.avail_out
  init : z.init.1.next_in = []

/-- With input and space `deflate` goes on. With `Z_FINISH` it completes the stream,
or fills the space; what it has put out is bounded by what it has consumed. -/
structure Deflates (z : ZFunctions σ) (Format : Bytes → Bytes → Prop) : Prop extends z.Advances where
  init_ok : z.init.2 = Z_OK
  feed : ∀ {s : ZStream σ} {x y}, z.Fed s.state x y → s.next_in ≠ [] → 0 < s.avail_out →
    (z.run s .Z_NO_FLUSH).ret = Z_OK ∧
      ((z.run s .Z_NO_FLUSH).stream.next_in ≠ s.next_in ∨ (z.run s .Z_NO_FLUSH).out ≠ [])
  finish : ∀ {s : ZStream σ} {x y}, z.Finishing s.state x y → s.next_in = [] → 0 < s.avail_out →
    (z.run s .Z_FINISH).ret = Z_STREAM_END ∧ Format (y ++ (z.run s .Z_FINISH).out) x ∨
      (z.run s .Z_FINISH).ret = Z_OK ∧ (z.run s .Z_FINISH).stream.avail_out = 0
  bounded : ∃ bound : Nat → Nat, ∀ {st x y}, z.Finishing st x y → y.length ≤ bound x.length

/-- With input of a complete stream and space `inflate` goes on, and what it has put
out are the first of the data. The last byte is consumed when all data is out. -/
structure Inflates (z : ZFunctions σ) (Format : Bytes → Bytes → Prop) : Prop extends z.Advances where
  init_ok : z.init.2 = Z_OK
  feed : ∀ {s : ZStream σ} {c x p y}, Format c x → z.Fed s.state p y → s.next_in ≠ [] → p ++ s.next_in <+: c →
    0 < s.avail_out → ((z.run s .Z_NO_FLUSH).ret = Z_OK ∨ (z.run s .Z_NO_FLUSH).ret = Z_STREAM_END) ∧
      ((z.run s .Z_NO_FLUSH).stream.next_in ≠ s.next_in ∨ (z.run s .Z_NO_FLUSH).out ≠ [])
  sound : ∀ {c x st p y}, Format c x → z.Fed st p y → p <+: c → y <+: x
  complete : ∀ {c x st y}, Format c x → z.Fed st c y → y = x
  close_ok : ∀ {s : ZStream σ} {p y}, z.Fed s.state p y → (z.close (z.run s .Z_FINISH).stream).2 = Z_OK

/-- What `inflate` does with any input. It takes none behind the end of the stream,
and tells the end just when the whole stream is consumed; of a stream it has found
fault with, or that was not initialised, it does not tell an end. -/
structure Decompresses (z : ZFunctions σ) (Format : Bytes → Bytes → Prop) : Prop extends z.Advances where
  progress : ∀ {s : ZStream σ} {p y}, z.Ran s.state p y → s.next_in ≠ [] → 0 < s.avail_out →
    (z.run s .Z_NO_FLUSH).ret = Z_OK →
      (z.run s .Z_NO_FLUSH).stream.next_in ≠ s.next_in ∨ (z.run s .Z_NO_FLUSH).out ≠ []
  bounded : ∃ bound : Nat → Nat, ∀ {st p y}, z.Ran st p y → y.length ≤ bound p.length
  stops : ∀ {s : ZStream σ} {x p y front}, z.Ran s.state p y → Format (p ++ front) x → front <+: s.next_in →
    ∃ used, used <+: front ∧ s.next_in = used ++ (z.run s .Z_NO_FLUSH).stream.next_in
  stream_end : ∀ {s : ZStream σ} {p y used}, z.Ran s.state p y → s.next_in ≠ [] →
    s.next_in = used ++ (z.run s .Z_NO_FLUSH).stream.next_in →
      ((z.run s .Z_NO_FLUSH).ret = Z_STREAM_END ↔ ∃ x, Format (p ++ used) x)
  goes_on : ∀ {s : ZStream σ} {x p y front}, z.init.2 = Z_OK → z.Ran s.state p y → s.next_in ≠ [] →
    0 < s.avail_out → Format (p ++ front) x → front ≠ [] → front <+: s.next_in ∨ s.next_in <+: front →
      ¬Failing (z.run s .Z_NO_FLUSH).ret
  fails_again : ∀ {s s' : ZStream σ} {p y}, z.Ran s.state p y → s.next_in ≠ [] → 0 < s.avail_out →
    Failing (z.run s .Z_NO_FLUSH).ret → s'.state = (z.run s .Z_NO_FLUSH).stream.state → s'.next_in ≠ [] →
      0 < s'.avail_out → Failing (z.run s' .Z_NO_FLUSH).ret
  uninit : ∀ {s : ZStream σ} {p y}, z.init.2 ≠ Z_OK → z.Ran s.state p y → s.next_in ≠ [] →
    Failing (z.run s .Z_NO_FLUSH).ret
  complete : ∀ {c x st y}, Format c x → z.Ran st c y → y = x
  close_ok : ∀ {s : ZStream σ} {p y}, z.init.2 = Z_OK → z.Ran s.state p y →
    (z.close (z.run s .Z_FINISH).stream).2 = Z_OK

/-- A call of `inflate` with input and space puts out all that the input up to its end
is `decoded` to, or fills the space and has more. It finds fault with the input just
when that has a `fault`, and only when it has put out all that comes before. -/
structure Decodes (z : ZFunctions σ) (decoded : Bytes → Bytes) (fault : Bytes → Prop) : Prop where
  nil : decoded [] = [] ∧ ¬fault []
  call : ∀ {s : ZStream σ} {p y}, z.init.2 = Z_OK → z.Ran s.state p y → s.next_in ≠ [] → 0 < s.avail_out →
    (y ++ (z.run s .Z_NO_FLUSH).out = decoded (p ++ s.next_in) ∧
        (Failing (z.run s .Z_NO_FLUSH).ret ↔ fault (p ++ s.next_in))) ∨
      ((z.run s .Z_NO_FLUSH).stream.avail_out = 0 ∧ ¬Failing (z.run s .Z_NO_FLUSH).ret ∧
        (y ++ (z.run s .Z_NO_FLUSH).out).length < (decoded (p ++ s.next_in)).length)

end ZFunctions

-- ---------------------------------------------------------------------------
-- A codec that stores its data
-- ---------------------------------------------------------------------------

namespace Stored

/-- What the decoder expects next; after `tail []` nothing. -/
inductive Expects
  | magic
  | flags
  | block
  | literal
  | letter
  | tail (bytes : Bytes)
  | bad
  deriving DecidableEq

/-- The data of the stream is empty or the letter `a`, as zlib has them, or comes
byte by byte. -/
def step : Expects → UInt8 → Expects × Bytes
  | .magic, b => if b = 0x78 then (.flags, []) else (.bad, [])
  | .flags, b => if b = 0x9c then (.block, []) else (.bad, [])
  | .block, b =>
    if b = 0x02 then (.literal, [])
    else if b = 0x03 then (.tail [0x00, 0x00, 0x00, 0x00, 0x01], [])
    else if b = 0x4b then (.letter, [])
    else (.bad, [])
  | .literal, b => (.block, [b])
  | .letter, b => if b = 0x04 then (.tail [0x00, 0x00, 0x62, 0x00, 0x62], [0x61]) else (.bad, [])
  | .tail (e :: rest), b => if b = e then (.tail rest, []) else (.bad, [])
  | .tail [], _ => (.bad, [])
  | .bad, _ => (.bad, [])

def decode : Expects → Bytes → Expects × Bytes
  | q, [] => (q, [])
  | q, b :: rest => ((decode (step q b).1 rest).1, (step q b).2 ++ (decode (step q b).1 rest).2)

def Format (c x : Bytes) : Prop := decode .magic c = (.tail [], x)

def body (x : Bytes) : Bytes :=
  if x = [0x61] then [0x4b, 0x04, 0x00, 0x00, 0x62, 0x00, 0x62]
  else x.flatMap (fun b => [0x02, b]) ++ [0x03, 0x00, 0x00, 0x00, 0x00, 0x01]

def encode (x : Bytes) : Bytes := [0x78, 0x9c] ++ body x

theorem decode_append (q : Expects) (p r : Bytes) :
    decode q (p ++ r) = ((decode (decode q p).1 r).1, (decode q p).2 ++ (decode (decode q p).1 r).2) := by
  induction p generalizing q with
  | nil => rfl
  | cons b p ih =>
    simp only [List.cons_append, decode, ih, List.append_assoc]

theorem decode_block (x : Bytes) :
    decode .block (x.flatMap (fun b => [0x02, b]) ++ [0x03, 0x00, 0x00, 0x00, 0x00, 0x01]) =
      (.tail [], x) := by
  induction x with
  | nil => rfl
  | cons b x ih =>
    have hliteral : decode .block [0x02, b] = (.block, [b]) := rfl
    rw [List.flatMap_cons, List.append_assoc, decode_append, hliteral, ih]
    rfl

theorem format_encode (x : Bytes) : Format (encode x) x := by
  have hheader : decode .magic [0x78, 0x9c] = (.block, []) := rfl
  rw [Format, encode, decode_append, hheader, body]
  split
  · subst x
    rfl
  · rw [decode_block]
    rfl

theorem step_length (q : Expects) (b : UInt8) : (step q b).2.length ≤ 1 := by
  fun_cases step q b <;> simp

theorem decode_bad (p : Bytes) : (decode .bad p).1 = .bad := by
  induction p with
  | nil => rfl
  | cons b p ih => exact ih

structure Taken where
  state : Expects
  rest : Bytes
  out : Bytes

/-- Takes input as long as there is space for what it decodes to and the stream has
not ended. -/
def take : Expects → Bytes → Nat → Taken
  | q, [], _ => ⟨q, [], []⟩
  | q, b :: rest, space =>
    if q = .tail [] ∨ q = .bad ∨ space < (step q b).2.length then ⟨q, b :: rest, []⟩
    else
      let t := take (step q b).1 rest (space - (step q b).2.length)
      { t with out := (step q b).2 ++ t.out }

theorem take_spec (q : Expects) (input : Bytes) (space : Nat) :
    ∃ used, input = used ++ (take q input space).rest ∧
      decode q used = ((take q input space).state, (take q input space).out) ∧
        (take q input space).out.length ≤ space := by
  induction input generalizing q space with
  | nil => exact ⟨[], rfl, rfl, Nat.zero_le _⟩
  | cons b rest ih =>
    by_cases hstop : q = .tail [] ∨ q = .bad ∨ space < (step q b).2.length
    · simp only [take, if_pos hstop]
      exact ⟨[], rfl, rfl, Nat.zero_le _⟩
    · simp only [take, if_neg hstop]
      obtain ⟨used, hused, hdecode, hspace⟩ := ih (step q b).1 (space - (step q b).2.length)
      refine ⟨b :: used, congrArg (b :: ·) hused, by rw [decode, hdecode], ?_⟩
      rw [List.length_append]
      have hfits := Nat.not_lt.mp fun h => hstop (.inr (.inr h))
      exact Nat.add_le_of_le_sub' hfits hspace

theorem take_goes_on (hend : q ≠ .tail []) (hbad : q ≠ .bad) (hspace : 0 < space) (hinput : input ≠ []) :
    (take q input space).rest ≠ input := by
  cases input with
  | nil => exact (hinput rfl).elim
  | cons b rest =>
    have hstop : ¬(q = .tail [] ∨ q = .bad ∨ space < (step q b).2.length) := by
      rintro (h | h | h)
      · exact hend h
      · exact hbad h
      · exact Nat.not_lt.mpr (Nat.le_trans (step_length q b) hspace) h
    obtain ⟨used, hused, -⟩ := take_spec (step q b).1 rest (space - (step q b).2.length)
    simp only [take, if_neg hstop]
    intro h
    have hlength := congrArg List.length hused
    rw [h, List.length_append, List.length_cons] at hlength
    omega

def inflate : ZFunctions Expects where
  init := (⟨.magic, [], 0⟩, Z_OK)
  run s _ :=
    let t := take s.state s.next_in s.avail_out
    ⟨⟨t.state, t.rest, s.avail_out - t.out.length⟩, t.out,
      if t.state = .tail [] then Z_STREAM_END else if t.state = .bad then Z_DATA_ERROR else Z_OK⟩
  close s := (s, Z_OK)

theorem inflate_ran (h : inflate.Ran q p y) : decode .magic p = (q, y) := by
  induction h with
  | init => rfl
  | @run x y used s _ _ hused ih =>
    obtain ⟨used', hused', hdecode, -⟩ := take_spec s.state s.next_in s.avail_out
    have hsame : used = used' := List.append_cancel_right (hused.symm.trans hused')
    rw [decode_append, ih, hsame, hdecode]
    rfl

theorem inflate_fed (h : inflate.Fed q p y) : decode .magic p = (q, y) := inflate_ran h.ran

theorem state_ne_bad (hc : Format c x) (hp : p <+: c) : (decode .magic p).1 ≠ .bad := by
  obtain ⟨r, rfl⟩ := hp
  intro hbad
  have hstate := congrArg Prod.fst hc
  rw [decode_append, hbad, decode_bad] at hstate
  cases hstate

theorem state_ne_end (hc : Format c x) (hp : p ++ input <+: c) (hin : input ≠ []) :
    (decode .magic p).1 ≠ .tail [] := by
  intro hend
  cases input with
  | nil => exact hin rfl
  | cons b rest =>
    refine state_ne_bad hc hp ?_
    rw [decode_append, hend]
    exact decode_bad rest

theorem inflate_inflates : inflate.Inflates Format where
  next_in s _ := by
    obtain ⟨used, hused, -⟩ := take_spec s.state s.next_in s.avail_out
    exact ⟨used, hused.symm⟩
  avail_out s _ := by
    obtain ⟨-, -, -, hspace⟩ := take_spec s.state s.next_in s.avail_out
    exact Nat.add_sub_cancel' hspace
  init := rfl
  init_ok := rfl
  feed := by
    intro s c x p y hc hfed hin hfront hspace
    have hstate := congrArg Prod.fst (inflate_fed hfed)
    have hend := hstate ▸ state_ne_end hc hfront hin
    have hbad := hstate ▸ state_ne_bad hc ((List.prefix_append p _).trans hfront)
    refine ⟨?_, .inl (take_goes_on hend hbad hspace hin)⟩
    obtain ⟨used, hused, hdecode, -⟩ := take_spec s.state s.next_in s.avail_out
    have hafter : (decode .magic (p ++ used)).1 = (take s.state s.next_in s.avail_out).state := by
      rw [decode_append, hstate, hdecode]
    have hconsumed : p ++ used <+: c := by
      refine List.IsPrefix.trans ?_ hfront
      rw [hused, ← List.append_assoc]
      exact List.prefix_append ..
    have hgood := hafter ▸ state_ne_bad hc hconsumed
    by_cases hdone : (take s.state s.next_in s.avail_out).state = .tail []
    · exact .inr (if_pos hdone)
    · exact .inl ((if_neg hdone).trans (if_neg hgood))
  sound := by
    rintro c x q p y hc hfed ⟨r, rfl⟩
    rw [Format, decode_append, inflate_fed hfed] at hc
    exact ⟨_, (Prod.mk.inj hc).2⟩
  complete hc hfed := (Prod.mk.inj ((inflate_fed hfed).symm.trans hc)).2
  close_ok _ := rfl

theorem take_end (input : Bytes) (space : Nat) : take (.tail []) input space = ⟨.tail [], input, []⟩ := by
  cases input <;> rfl

theorem take_bad (input : Bytes) (space : Nat) : take .bad input space = ⟨.bad, input, []⟩ := by
  cases input <;> rfl

theorem take_stops (front rest : Bytes) (hend : (decode q front).1 = .tail []) (space : Nat) :
    ∃ used, used <+: front ∧ front ++ rest = used ++ (take q (front ++ rest) space).rest := by
  induction front generalizing q space with
  | nil =>
    subst hend
    exact ⟨[], List.nil_prefix, by rw [List.nil_append, take_end]; rfl⟩
  | cons b front ih =>
    by_cases hstop : q = .tail [] ∨ q = .bad ∨ space < (step q b).2.length
    · refine ⟨[], List.nil_prefix, ?_⟩
      simp only [List.cons_append, take, if_pos hstop, List.nil_append]
    · obtain ⟨used, hused, hrest⟩ := ih (q := (step q b).1) hend (space - (step q b).2.length)
      refine ⟨b :: used, List.cons_prefix_cons.mpr ⟨rfl, hused⟩, ?_⟩
      simp only [List.cons_append, take, if_neg hstop]
      exact congrArg (b :: ·) hrest

theorem decode_length (q : Expects) (p : Bytes) : (decode q p).2.length ≤ p.length := by
  induction p generalizing q with
  | nil => exact Nat.le_refl _
  | cons b p ih =>
    simp only [decode, List.length_append, List.length_cons]
    have hstep := step_length q b
    have hrest := ih (step q b).1
    omega

theorem inflate_ret (s : ZStream Expects) (flush : ZFlush) :
    (inflate.run s flush).ret = (if (take s.state s.next_in s.avail_out).state = .tail [] then Z_STREAM_END
      else if (take s.state s.next_in s.avail_out).state = .bad then Z_DATA_ERROR else Z_OK) := rfl

theorem inflate_failing_iff (s : ZStream Expects) (flush : ZFlush) :
    Failing (inflate.run s flush).ret ↔ (take s.state s.next_in s.avail_out).state = .bad := by
  rw [inflate_ret]
  split
  next hend => simp [hend, Failing]
  next hend =>
    split
    next hbad => simp [hbad, Failing, Z_OK, Z_DATA_ERROR, Z_STREAM_END]
    next hbad => simp [hbad, Failing]

theorem inflate_ran_state {s : ZStream Expects} (h : inflate.Ran s.state p y)
    (hused : s.next_in = used ++ (inflate.run s .Z_NO_FLUSH).stream.next_in) :
    (decode .magic (p ++ used)).1 = (take s.state s.next_in s.avail_out).state := by
  obtain ⟨used', hused', hdecode, -⟩ := take_spec s.state s.next_in s.avail_out
  have hsame : used = used' := List.append_cancel_right (hused.symm.trans hused')
  rw [decode_append, inflate_ran h, hsame, hdecode]

theorem inflate_stops {s : ZStream Expects} (h : inflate.Ran s.state p y) (hc : Format (p ++ front) x)
    (hfront : front <+: s.next_in) :
    ∃ used, used <+: front ∧ s.next_in = used ++ (inflate.run s .Z_NO_FLUSH).stream.next_in := by
  have hend := congrArg Prod.fst hc
  rw [decode_append, inflate_ran h] at hend
  obtain ⟨rest, hrest⟩ := hfront
  obtain ⟨used, hused, heq⟩ := take_stops front rest hend s.avail_out
  rw [hrest] at heq
  exact ⟨used, hused, heq⟩

theorem inflate_decompresses : inflate.Decompresses Format where
  toAdvances := inflate_inflates.toAdvances
  progress := by
    intro s p y hran hin hspace hok
    have hgood : ¬Failing (inflate.run s .Z_NO_FLUSH).ret := fun h => h.1 hok
    rw [inflate_failing_iff] at hgood
    refine .inl (take_goes_on ?_ ?_ hspace hin)
    · intro hend
      rw [inflate_ret, hend, take_end] at hok
      cases hok
    · intro hbad
      rw [hbad, take_bad] at hgood
      exact hgood rfl
  bounded := by
    refine ⟨id, fun {st p y} hran => ?_⟩
    have hlength := decode_length .magic p
    rwa [inflate_ran hran] at hlength
  stops := inflate_stops
  stream_end := by
    intro s p y used hran _ hused
    have hstate := inflate_ran_state hran hused
    rw [inflate_ret, ← hstate]
    constructor
    · intro hret
      split at hret
      next hend => exact ⟨_, Prod.ext hend rfl⟩
      next => split at hret <;> cases hret
    · rintro ⟨x, hformat⟩
      exact if_pos (congrArg Prod.fst hformat)
  goes_on := by
    intro s x p y front _ hran hin hspace hc hfront hnext hfails
    obtain ⟨used, hused, heq⟩ : ∃ used, used <+: front ∧
        s.next_in = used ++ (inflate.run s .Z_NO_FLUSH).stream.next_in := by
      rcases hnext with hnext | hnext
      · exact inflate_stops hran hc hnext
      · obtain ⟨used, heq, -⟩ := take_spec s.state s.next_in s.avail_out
        exact ⟨used, List.IsPrefix.trans ⟨_, heq.symm⟩ hnext, heq⟩
    rw [inflate_failing_iff, ← inflate_ran_state hran heq] at hfails
    exact state_ne_bad hc ((List.prefix_append_right_inj p).mpr hused) hfails
  fails_again := by
    intro s s' p y _ _ _ hfails hstate _ _
    rw [inflate_failing_iff] at hfails ⊢
    rw [hstate, show (inflate.run s .Z_NO_FLUSH).stream.state = .bad from hfails, take_bad]
  uninit h := absurd rfl h
  complete hc hran := (Prod.mk.inj ((inflate_ran hran).symm.trans hc)).2
  close_ok _ _ := rfl

def all : Expects → Bytes → Expects × Bytes
  | q, [] => (q, [])
  | q, b :: rest =>
    if q = .tail [] ∨ q = .bad then (q, [])
    else ((all (step q b).1 rest).1, (step q b).2 ++ (all (step q b).1 rest).2)

structure Deflating where
  buffer : Bytes
  pending : Bytes
  finishing : Bool

def Deflating.add (st : Deflating) (input : Bytes) : ZFlush → Deflating
  | .Z_NO_FLUSH => { st with buffer := st.buffer ++ input }
  | .Z_FINISH =>
    if st.finishing then st
    else ⟨st.buffer ++ input, st.pending ++ body (st.buffer ++ input), true⟩

def deflate : ZFunctions Deflating where
  init := (⟨⟨[], [0x78, 0x9c], false⟩, [], 0⟩, Z_OK)
  run s flush :=
    let st := s.state.add s.next_in flush
    let out := st.pending.take s.avail_out
    let left := st.pending.drop s.avail_out
    ⟨⟨{ st with pending := left }, [], s.avail_out - out.length⟩, out, match flush with
      | .Z_NO_FLUSH => Z_OK
      | .Z_FINISH => if left = [] then Z_STREAM_END else Z_OK⟩
  close s := (s, Z_OK)

theorem deflate_fed (h : deflate.Fed st x y) :
    st.buffer = x ∧ y ++ st.pending = [0x78, 0x9c] ∧ st.finishing = false := by
  induction h with
  | init => exact ⟨rfl, rfl, rfl⟩
  | @run x y used s _ _ _ hused ih =>
    obtain ⟨hbuffer, hpending, hfinishing⟩ := ih
    have hall : s.next_in = used := hused.trans (List.append_nil _)
    refine ⟨?_, ?_, hfinishing⟩
    · exact hall ▸ hbuffer ▸ rfl
    · rw [← hpending, List.append_assoc]
      exact congrArg (y ++ ·) (List.take_append_drop ..)

def Deflating.Puts (st : Deflating) (x y : Bytes) : Prop :=
  st.finishing = false ∧ st.buffer = x ∧ y ++ st.pending = [0x78, 0x9c] ∨
    st.finishing = true ∧ y ++ st.pending = encode x

theorem Deflating.Puts.add {st : Deflating} (h : st.Puts x y) :
    (st.add [] .Z_FINISH).finishing = true ∧ y ++ (st.add [] .Z_FINISH).pending = encode x := by
  rcases h with ⟨hfinishing, hbuffer, hpending⟩ | ⟨hfinishing, hpending⟩
  · simp only [Deflating.add, hfinishing, hbuffer, Bool.false_eq_true, if_false, List.append_nil]
    exact ⟨trivial, by rw [← List.append_assoc, hpending, encode]⟩
  · simp only [Deflating.add, hfinishing, if_true]
    exact ⟨trivial, hpending⟩

theorem deflate_finishing (h : deflate.Finishing st x y) : st.Puts x y := by
  induction h with
  | fed hfed =>
    obtain ⟨hbuffer, hpending, hfinishing⟩ := deflate_fed hfed
    exact .inl ⟨hfinishing, hbuffer, hpending⟩
  | @run x y s _ hin _ _ ih =>
    obtain ⟨hfinishing, hpending⟩ := ih.add
    rw [← hin] at hfinishing hpending
    refine .inr ⟨hfinishing, ?_⟩
    rw [← hpending, List.append_assoc]
    exact congrArg (y ++ ·) (List.take_append_drop ..)

theorem length_encode_le (x : Bytes) : (encode x).length ≤ 2 * x.length + 9 := by
  unfold encode body
  split
  · subst x
    decide
  · simp [List.length_flatMap]
    omega

theorem deflate_deflates : deflate.Deflates Format where
  next_in s _ := List.nil_suffix
  avail_out s flush := by
    exact Nat.add_sub_cancel' (List.length_take_le ..)
  init := rfl
  init_ok := rfl
  feed _ hin _ := ⟨rfl, .inl hin.symm⟩
  finish := by
    intro s x y hfinishing hin hspace
    obtain ⟨-, hpending⟩ := (deflate_finishing hfinishing).add
    rw [← hin] at hpending
    by_cases hleft : (s.state.add s.next_in .Z_FINISH).pending.drop s.avail_out = []
    · refine .inl ⟨if_pos hleft, ?_⟩
      have hall : (deflate.run s .Z_FINISH).out = (s.state.add s.next_in .Z_FINISH).pending :=
        List.take_of_length_le (List.drop_eq_nil_iff.mp hleft)
      rw [hall, hpending]
      exact format_encode x
    · refine .inr ⟨if_neg hleft, ?_⟩
      have hfull := Nat.le_of_lt (Nat.not_le.mp (mt List.drop_eq_nil_iff.mpr hleft))
      exact Nat.sub_eq_zero_of_le (Nat.le_of_eq (List.length_take_of_le hfull).symm)
  bounded := by
    refine ⟨fun n => 2 * n + 9, fun {st x y} hfinishing => ?_⟩
    obtain ⟨-, hpending⟩ := (deflate_finishing hfinishing).add
    have hlength := congrArg List.length hpending
    rw [List.length_append] at hlength
    exact Nat.le_trans (Nat.le_of_add_right_le (Nat.le_of_eq hlength)) (length_encode_le x)

end Stored

end Andren.Base
