import Andren.Base.ZlibStream

/-!
# Decompressing any input

`decompress` goes on as long as input is left, and takes the end of the stream for
success. `inflate` consumes nothing behind that end, so the loop is left just when no
byte stands there (`decompress_terminates_iff`). `finished` calls `inflateEnd` before it
looks at the result of `inflate`, so what it returns is taken for the result of a stream
that was cut off too (`finished_reports_iff`).
-/

namespace Andren.Base

open Machines

/-- What `avail_in` covers of the strings. -/
def inputs (strings : List Bytes) : Bytes := (strings.map ZStreamPrivate.inputOf).flatten

@[simp] theorem inputs_cons (data : Bytes) (rest : List Bytes) :
    inputs (data :: rest) = ZStreamPrivate.inputOf data ++ inputs rest := rfl

namespace ZStreamPrivate

structure Ready (z : ZFunctions σ) (x : ZStreamPrivate σ) (p : Bytes) : Prop where
  ran : ∃ y, z.Ran x.stream.state p y ∧ x.m_data.length ≤ y.length
  space : 0 < x.tmp.length

structure Broken (z : ZFunctions σ) (x : ZStreamPrivate σ) : Prop where
  ready : ∃ p, Ready z x p
  fails : ∀ s : ZStream σ, s.state = x.stream.state → s.next_in ≠ [] → 0 < s.avail_out →
    Failing (z.run s .Z_NO_FLUSH).ret

end ZStreamPrivate

section

variable {z : ZFunctions σ} {Format : Bytes → Bytes → Prop} {x : ZStreamPrivate σ}

open ZStreamPrivate

/-- A stream does not go on behind its end. -/
theorem ran_end (hz : z.Decompresses Format) (h : z.Ran st p y) (hc : Format c d) (hfront : c <+: p) : c = p := by
  induction h with
  | init => exact List.prefix_nil.mp hfront
  | @run p y used s hran hin hused ih =>
    have htakes : ∀ front, c = p ++ front → front <+: used → front = used := by
      rintro front rfl hle
      obtain ⟨used', hused', heq⟩ := hz.stops hran hc (hle.trans ⟨_, hused.symm⟩)
      have hsame : used = used' := List.append_cancel_right (hused.symm.trans heq)
      exact hle.eq_of_length_le (hsame ▸ hused'.length_le)
    rcases List.prefix_or_prefix_of_prefix hfront (List.prefix_append p used) with hle | ⟨front, rfl⟩
    · have heq := ih hle
      rw [heq, ← htakes [] (heq.trans (List.append_nil p).symm) List.nil_prefix, List.append_nil]
    · rw [htakes front rfl ((List.prefix_append_right_inj p).mp hfront)]

-- ---------------------------------------------------------------------------
-- One pass
-- ---------------------------------------------------------------------------

theorem decompressBody_eq (z : ZFunctions σ) (hin : x.stream.next_in ≠ []) :
    ZStreamDecompressPrivate.decompressBody z x =
      if Failing (x.called z .Z_NO_FLUSH).ret then .inr (-2, (x.run z .Z_NO_FLUSH).1)
      else .inl (x.run z .Z_NO_FLUSH).1.append := by
  rw [ZStreamDecompressPrivate.decompressBody, feedBody, if_pos (List.length_pos_iff.mpr hin)]
  exact if_congr (by simp [Failing]) rfl rfl

/-- A pass with input left consumes `used`. It leaves the loop when `inflate` finds
fault with the input, and appends what was put out otherwise. -/
theorem decompressBody_run (hz : z.Advances) (hx : Ready z x p) (hin : x.stream.next_in ≠ []) :
    ∃ used x', x.stream.next_in = used ++ x'.stream.next_in ∧ Ready z x' (p ++ used) ∧
      x'.stream.state = (x.called z .Z_NO_FLUSH).stream.state ∧
      x'.stream.next_in = (x.called z .Z_NO_FLUSH).stream.next_in ∧ x'.m_valid = x.m_valid ∧
      (Failing (x.called z .Z_NO_FLUSH).ret ∧ ZStreamDecompressPrivate.decompressBody z x = .inr (-2, x') ∧
          x'.m_data = x.m_data ∨
        ¬Failing (x.called z .Z_NO_FLUSH).ret ∧ ZStreamDecompressPrivate.decompressBody z x = .inl x' ∧
          x'.m_data = x.m_data ++ (x.called z .Z_NO_FLUSH).out) := by
  obtain ⟨used, hused⟩ := hz.next_in { x.stream with avail_out := x.tmp.length } .Z_NO_FLUSH
  obtain ⟨hdata, hlength⟩ := append_run hz x .Z_NO_FLUSH
  obtain ⟨y, hran, hle⟩ := hx.ran
  have hran' : z.Ran (x.called z .Z_NO_FLUSH).stream.state (p ++ used) (y ++ (x.called z .Z_NO_FLUSH).out) :=
    .run (s := { x.stream with avail_out := x.tmp.length }) hran hin hused.symm
  have hspace : 0 < (x.run z .Z_NO_FLUSH).1.tmp.length := Nat.lt_of_lt_of_eq hx.space hlength.symm
  by_cases hfails : Failing (x.called z .Z_NO_FLUSH).ret
  · refine ⟨used, _, hused.symm, ⟨⟨_, hran', ?_⟩, hspace⟩, rfl, rfl, rfl, .inl ⟨hfails, ?_, rfl⟩⟩
    · exact Nat.le_trans hle (by rw [List.length_append]; exact Nat.le_add_right ..)
    · rw [decompressBody_eq z hin, if_pos hfails]
  · refine ⟨used, (x.run z .Z_NO_FLUSH).1.append, hused.symm, ⟨⟨_, hran', ?_⟩, hspace⟩, rfl, rfl, rfl,
      .inr ⟨hfails, ?_, hdata⟩⟩
    · rw [hdata, List.length_append, List.length_append]
      exact Nat.add_le_add_right hle _
    · rw [decompressBody_eq z hin, if_neg hfails]

-- ---------------------------------------------------------------------------
-- One call
-- ---------------------------------------------------------------------------

/-- No stream ends before the bytes do. -/
def NoneBehind (Format : Bytes → Bytes → Prop) (bytes : Bytes) : Prop :=
  ∀ c d, Format c d → c <+: bytes → c = bytes

/-- A call that returns 0 has consumed everything up to `T`; otherwise `inflate` found
fault, and then no stream begins with `T`. -/
def CallEnds (z : ZFunctions σ) (Format : Bytes → Bytes → Prop) (T : Bytes) (r : Int × ZStreamPrivate σ) : Prop :=
  r.1 = 0 ∧ Ready z r.2 T ∧ r.2.m_valid = true ∨ r.1 = -2 ∧ Broken z r.2 ∧ ∀ c d, Format c d → ¬T <+: c

theorem decompress_valid (hx : x.m_valid = true) (data : Bytes) (fuel : Nat) :
    ZStreamDecompressPrivate.decompress z fuel x data =
      loop (ZStreamDecompressPrivate.decompressBody z) fuel (x.setInput data) :=
  if_neg fun h => Bool.false_ne_true (h.1.symm.trans hx)

theorem broken_of_failing (hz : z.Decompresses Format) (hinit : z.init.2 = Z_OK) (hx : Ready z x p)
    (hin : x.stream.next_in ≠ []) (hT : p ++ x.stream.next_in = T) (hx' : Ready z x' p')
    (hstate : x'.stream.state = (x.called z .Z_NO_FLUSH).stream.state)
    (hfails : Failing (x.called z .Z_NO_FLUSH).ret) : CallEnds z Format T (-2, x') := by
  obtain ⟨y, hran, -⟩ := hx.ran
  refine .inr ⟨rfl, ⟨⟨_, hx'⟩, fun s hs hin' hspace => ?_⟩, ?_⟩
  · exact hz.fails_again (s := { x.stream with avail_out := x.tmp.length }) hran hin hx.space hfails
      (hs.trans hstate) hin' hspace
  · rintro c d hc ⟨rest, rfl⟩
    rw [← hT, List.append_assoc] at hc
    refine hz.goes_on (s := { x.stream with avail_out := x.tmp.length }) hinit hran hin hx.space hc ?_ ?_ hfails
    · exact List.append_ne_nil_of_left_ne_nil hin _
    · exact .inr (List.prefix_append ..)

/-- When no byte stands behind an end, the loop is left. -/
theorem decompress_ends (hz : z.Decompresses Format) (hinit : z.init.2 = Z_OK) (hx : Ready z x p)
    (hvalid : x.m_valid = true) (data : Bytes) (hend : NoneBehind Format (p ++ inputOf data)) :
    ∃ r, Returns (ZStreamDecompressPrivate.decompress z · x data) r ∧
      CallEnds z Format (p ++ inputOf data) r := by
  obtain ⟨bound, hbound⟩ := hz.bounded
  simp only [decompress_valid hvalid]
  generalize hT : p ++ inputOf data = T at hend
  refine loop_returns (ZStreamDecompressPrivate.decompressBody z)
    (I := fun x => ∃ p, Ready z x p ∧ x.m_valid = true ∧ p ++ x.stream.next_in = T)
    (Prod.lex Nat.lt_wfRel Nat.lt_wfRel).wf
    (fun x => (x.stream.next_in.length, bound (T.length - x.stream.next_in.length) - x.m_data.length)) ?_
    ⟨p, ⟨hx.ran, hx.space⟩, hvalid, hT⟩
  rintro x ⟨p, hx, hvalid, hT⟩
  by_cases hin : x.stream.next_in = []
  · refine .inr ⟨_, feedBody_nil hin, .inl ⟨rfl, ?_⟩⟩
    rw [hin, List.append_nil] at hT
    exact ⟨hT ▸ hx, hvalid⟩
  obtain ⟨used, x', hused, hx', hstate, hnext, hvalid', ⟨hfails, hbody, -⟩ | ⟨hgoes, hbody, hdata⟩⟩ :=
    decompressBody_run hz.toAdvances hx hin
  · exact .inr ⟨_, hbody, broken_of_failing hz hinit hx hin hT hx' hstate hfails⟩
  · have hT' : p ++ used ++ x'.stream.next_in = T := by
      rw [List.append_assoc, ← hused, hT]
    refine .inl ⟨x', hbody, ⟨p ++ used, hx', hvalid'.trans hvalid, hT'⟩, Prod.lex_def.mpr ?_⟩
    obtain ⟨y, hran, -⟩ := hx.ran
    obtain ⟨y', hran', hle'⟩ := hx'.ran
    cases used with
    | cons b front =>
      have hlength := congrArg List.length hused
      rw [List.length_append] at hlength
      exact .inl (Nat.lt_of_lt_of_eq (Nat.lt_add_of_pos_left (Nat.succ_pos _)) hlength.symm)
    | nil =>
      have hlength : p.length = T.length - x'.stream.next_in.length := by
        rw [← hT', List.append_nil, List.length_append, Nat.add_sub_cancel]
      have hmost := Nat.le_trans hle' (hbound hran')
      rw [List.append_nil, hlength] at hmost
      rw [List.nil_append] at hused
      have hret : (x.called z .Z_NO_FLUSH).ret = Z_OK := by
        by_contra hne
        have hret : (x.called z .Z_NO_FLUSH).ret = Z_STREAM_END := by
          by_contra hne'
          exact hgoes ⟨hne, hne'⟩
        have hall : x.stream.next_in = [] ++ (x.called z .Z_NO_FLUSH).stream.next_in := hused.trans hnext
        obtain ⟨d, hd⟩ := (hz.stream_end (s := { x.stream with avail_out := x.tmp.length }) hran hin hall).mp hret
        have hall := hend _ d hd ⟨_, hT'⟩
        rw [List.append_nil, ← hT] at hall
        exact hin (List.self_eq_append_right.mp hall)
      have hout : (x.called z .Z_NO_FLUSH).out ≠ [] :=
        (hz.progress (s := { x.stream with avail_out := x.tmp.length }) hran hin hx.space hret).resolve_left
          fun hne => hne (hnext.symm.trans hused.symm)
      have hgrown : x.m_data.length < x'.m_data.length := by
        rw [hdata, List.length_append]
        exact Nat.lt_add_of_pos_right (List.length_pos_iff.mpr hout)
      rw [hused]
      exact .inr ⟨rfl, Nat.sub_lt_sub_left (Nat.lt_of_lt_of_le hgrown hmost) hgrown⟩

/-- With bytes behind the end of a stream the loop is never left. -/
theorem decompress_diverges (hz : z.Decompresses Format) (hinit : z.init.2 = Z_OK) (hx : Ready z x p)
    (hvalid : x.m_valid = true) (data : Bytes) (hc : Format (p ++ front) d) (hfront : front <+: inputOf data)
    (hne : front ≠ inputOf data) (r : Int × ZStreamPrivate σ) :
    ¬Returns (ZStreamDecompressPrivate.decompress z · x data) r := by
  simp only [decompress_valid hvalid]
  refine loop_diverges _ (s := x.setInput data) (I := fun x => ∃ p front, Ready z x p ∧ Format (p ++ front) d ∧
    front <+: x.stream.next_in ∧ front ≠ x.stream.next_in) ?_
    ⟨p, front, ⟨hx.ran, hx.space⟩, hc, hfront, hne⟩ r
  rintro x ⟨p, front, hx, hc, hfront, hne⟩
  have hin : x.stream.next_in ≠ [] := fun hin => hne (by rw [hin] at hfront ⊢; exact List.prefix_nil.mp hfront)
  obtain ⟨y, hran, -⟩ := hx.ran
  obtain ⟨used, x', hused, hx', -, hnext, -, hpass⟩ := decompressBody_run hz.toAdvances hx hin
  obtain ⟨used', ⟨rest, rfl⟩, hused'⟩ := hz.stops (s := { x.stream with avail_out := x.tmp.length }) hran hc hfront
  have hsame : used = used' := List.append_cancel_right (hused.symm.trans (hused'.trans (by rw [hnext]; rfl)))
  subst hsame
  have hgoes : ¬Failing (x.called z .Z_NO_FLUSH).ret := by
    by_cases hempty : used ++ rest = []
    · -- the stream has ended
      obtain ⟨rfl, rfl⟩ := List.append_eq_nil_iff.mp hempty
      have hret := (hz.stream_end (s := { x.stream with avail_out := x.tmp.length }) hran hin hused').mpr ⟨d, hc⟩
      exact fun hfails => hfails.2 hret
    · exact hz.goes_on (s := { x.stream with avail_out := x.tmp.length }) hinit hran hin hx.space hc hempty
        (.inl hfront)
  obtain ⟨hfails, -⟩ | ⟨-, hbody, -⟩ := hpass
  · exact absurd hfails hgoes
  · refine ⟨x', hbody, p ++ used, rest, hx', by rwa [List.append_assoc], ?_, fun heq => hne ?_⟩
    · rw [hused] at hfront
      exact (List.prefix_append_right_inj used).mp hfront
    · rw [hused, heq]

theorem broken_decompress (hz : z.Decompresses Format) (hx : Broken z x) (data : Bytes) :
    ∃ r, Returns (ZStreamDecompressPrivate.decompress z · x data) r ∧ Broken z r.2 ∧ r.2.m_data = x.m_data := by
  by_cases hguard : x.m_valid = false ∧ data.length ≤ 0
  · exact ⟨_, ⟨0, if_pos hguard⟩, hx, rfl⟩
  obtain ⟨p, hready⟩ := hx.ready
  have hready' : Ready z (x.setInput data) p := ⟨hready.ran, hready.space⟩
  simp only [ZStreamDecompressPrivate.decompress, if_neg hguard]
  by_cases hin : (x.setInput data).stream.next_in = []
  · refine ⟨(0, x.setInput data), ⟨1, ?_⟩, ⟨⟨p, hready'⟩, hx.fails⟩, rfl⟩
    simp only [loop, ZStreamDecompressPrivate.decompressBody, feedBody_nil hin]
  obtain ⟨used, x', -, hx', hstate, -, -, ⟨hfails, hbody, hdata⟩ | ⟨hgoes, -⟩⟩ :=
    decompressBody_run hz.toAdvances hready' hin
  · obtain ⟨y, hran, -⟩ := hready.ran
    refine ⟨(-2, x'), ⟨1, ?_⟩, ⟨⟨_, hx'⟩, fun s hs hin' hspace => ?_⟩, hdata⟩
    · simp only [loop, hbody]
    · exact hz.fails_again (s := { (x.setInput data).stream with avail_out := x.tmp.length }) hran hin hready.space
        hfails (hs.trans hstate) hin' hspace
  · have hfails := hx.fails { (x.setInput data).stream with avail_out := x.tmp.length } rfl hin hready.space
    exact absurd hfails hgoes

-- ---------------------------------------------------------------------------
-- Sequences of calls
-- ---------------------------------------------------------------------------

theorem callEach_cons_iff {call : Nat → ZStreamPrivate σ → Bytes → Option (Int × ZStreamPrivate σ)}
    (hsteady : ∀ x data, Steady (call · x data)) (x : ZStreamPrivate σ) (data : Bytes) (rest : List Bytes) :
    (∃ r, Returns (fun fuel => callEach (call fuel) x (data :: rest)) r) ↔
      ∃ r, Returns (call · x data) r ∧ ∃ r', Returns (fun fuel => callEach (call fuel) r.2 rest) r' := by
  constructor
  · rintro ⟨r, fuel, hr⟩
    obtain ⟨r₁, hfirst, hr⟩ := Option.bind_eq_some_iff.mp hr
    obtain ⟨r₂, hrest, -⟩ := Option.bind_eq_some_iff.mp hr
    exact ⟨r₁, ⟨fuel, hfirst⟩, r₂, ⟨fuel, hrest⟩⟩
  · rintro ⟨r₁, hfirst, r₂, hrest⟩
    have hsteady' := callEach_steady hsteady rest r₁.2
    exact ⟨_, hfirst.bind (hsteady x data) (hsteady'.bind fun _ => steady_const _)
      (hrest.bind hsteady' (steady_const _) (returns_const _))⟩

theorem broken_callEach (hz : z.Decompresses Format) (strings : List Bytes) : ∀ {x}, Broken z x →
    ∃ r, Returns (fun fuel => callEach (ZStreamDecompressPrivate.decompress z fuel) x strings) r := by
  induction strings with
  | nil => exact fun _ => ⟨_, returns_const _⟩
  | cons data rest ih =>
    intro x hx
    rw [callEach_cons_iff (decompress_steady z)]
    obtain ⟨r, hr, hx', -⟩ := broken_decompress hz hx data
    exact ⟨r, hr, ih hx'⟩

theorem callEach_decompress_iff (hz : z.Decompresses Format) (hinit : z.init.2 = Z_OK) (strings : List Bytes) :
    ∀ {x p}, Ready z x p → x.m_valid = true →
      ((∃ r, Returns (fun fuel => callEach (ZStreamDecompressPrivate.decompress z fuel) x strings) r) ↔
        NoneBehind Format (p ++ inputs strings)) := by
  induction strings with
  | nil =>
    intro x p hx hvalid
    obtain ⟨y, hran, -⟩ := hx.ran
    refine iff_of_true ⟨_, returns_const _⟩ fun c d hc hle => ?_
    rw [show p ++ inputs [] = p from List.append_nil p] at hle ⊢
    exact ran_end hz hran hc hle
  | cons data rest ih =>
    intro x p hx hvalid
    rw [callEach_cons_iff (decompress_steady z), inputs_cons, ← List.append_assoc]
    by_cases hend : NoneBehind Format (p ++ inputOf data)
    · obtain ⟨r, hr, hends⟩ := decompress_ends hz hinit hx hvalid data hend
      have hfirst : (∃ r', Returns (ZStreamDecompressPrivate.decompress z · x data) r' ∧
          ∃ r'', Returns (fun fuel => callEach (ZStreamDecompressPrivate.decompress z fuel) r'.2 rest) r'') ↔
          ∃ r'', Returns (fun fuel => callEach (ZStreamDecompressPrivate.decompress z fuel) r.2 rest) r'' :=
        ⟨fun ⟨_, hr', hrest⟩ => hr'.unique (decompress_steady z x data) hr ▸ hrest, fun hrest => ⟨r, hr, hrest⟩⟩
      rw [hfirst]
      obtain ⟨-, hx', hvalid'⟩ | ⟨-, hbroken, hnone⟩ := hends
      · exact ih hx' hvalid'
      · refine iff_of_true (broken_callEach hz rest hbroken) fun c d hc hle => ?_
        rcases List.prefix_or_prefix_of_prefix hle (List.prefix_append _ _) with hle' | hle'
        · exact absurd (hend c d hc hle' ▸ List.prefix_rfl) (hnone c d hc)
        · exact absurd hle' (hnone c d hc)
    · have hover : ∃ front d, Format (p ++ front) d ∧ front <+: inputOf data ∧ front ≠ inputOf data := by
        simp only [NoneBehind, not_forall] at hend
        obtain ⟨c, d, hc, hle, hne⟩ := hend
        obtain ⟨y, hran, -⟩ := hx.ran
        rcases List.prefix_or_prefix_of_prefix hle (List.prefix_append p _) with hle' | ⟨front, rfl⟩
        · have heq := ran_end hz hran hc hle'
          refine ⟨[], d, by rwa [List.append_nil, ← heq], List.nil_prefix, fun hnil => hne ?_⟩
          rw [← hnil, List.append_nil, heq]
        · exact ⟨front, d, hc, (List.prefix_append_right_inj p).mp hle, fun heq => hne (heq ▸ rfl)⟩
      obtain ⟨front, d, hc, hfront, hne⟩ := hover
      refine iff_of_false ?_ fun hnone => hne ?_
      · rintro ⟨r, hr, -⟩
        exact decompress_diverges hz hinit hx hvalid data hc hfront hne r hr
      · have hle : p ++ front <+: p ++ inputOf data := (List.prefix_append_right_inj p).mpr hfront
        have heq := hnone _ d hc (hle.trans (List.prefix_append ..))
        have hlength : (p ++ inputOf data).length ≤ (p ++ front).length := by
          rw [heq]
          exact (List.prefix_append ..).length_le
        exact List.append_cancel_left (hle.eq_of_length_le hlength)

theorem ready_new (z : ZFunctions σ) (hsize : 0 < CHUNK_SIZE) : Ready z (new z CHUNK_SIZE) [] := by
  refine ⟨⟨[], .init, Nat.le_refl _⟩, ?_⟩
  rw [new, List.length_replicate]
  exact UInt32.lt_iff_toNat_lt.mp hsize

theorem broken_new (hz : z.Decompresses Format) (hinit : z.init.2 ≠ Z_OK) (hsize : 0 < CHUNK_SIZE) :
    Broken z (new z CHUNK_SIZE) := by
  refine ⟨⟨[], ready_new z hsize⟩, fun s hs hin _ => hz.uninit (p := []) (y := []) hinit ?_ hin⟩
  rw [hs]
  exact .init

end

/-- Bytes that stand behind the end of a stream make a call run forever, and nothing
else does; a stream that was not initialised finds no end. -/
theorem decompress_terminates_iff {z : ZFunctions σ} {Format : Bytes → Bytes → Prop} (hz : z.Decompresses Format)
    (CHUNK_SIZE : UInt32) (hsize : 0 < CHUNK_SIZE) (strings : List Bytes) :
    (∃ r, Returns (fun fuel => callEach (ZStreamDecompressPrivate.decompress z fuel)
      (ZStreamPrivate.new z CHUNK_SIZE) strings) r) ↔ (z.init.2 = Z_OK → NoneBehind Format (inputs strings)) := by
  by_cases hinit : z.init.2 = Z_OK
  · have hvalid : (ZStreamPrivate.new z CHUNK_SIZE).m_valid = true := beq_iff_eq.mpr hinit
    rw [callEach_decompress_iff hz hinit strings (ready_new z hsize) hvalid, List.nil_append]
    exact ⟨fun h _ => h, fun h => h hinit⟩
  · exact iff_of_true (broken_callEach hz strings (broken_new hz hinit hsize)) fun h => absurd h hinit

theorem decompress_terminates_iff_letter : ∃ r, Returns (fun fuel =>
    callEach (ZStreamDecompressPrivate.decompress Stored.inflate fuel) (ZStreamPrivate.new Stored.inflate 4)
      [[0x78, 0x9c, 0x4b, 0x04], [0x00, 0x00, 0x62, 0x00, 0x62]]) r := by
  refine (decompress_terminates_iff Stored.inflate_decompresses 4 (by decide) _).mpr fun _ c d hc hle => ?_
  have hinits : ∀ c ∈ List.inits [0x78, 0x9c, 0x4b, 0x04, 0x00, 0x00, 0x62, 0x00, 0x62],
      (Stored.decode .magic c).1 = .tail [] → c = [0x78, 0x9c, 0x4b, 0x04, 0x00, 0x00, 0x62, 0x00, 0x62] := by
    decide
  exact hinits c ((List.mem_inits _ _).mpr hle) (congrArg Prod.fst hc)

theorem decompress_hangs : Stored.inflate.Decompresses Stored.Format ∧
    Stored.Format [0x78, 0x9c, 0x03, 0x00, 0x00, 0x00, 0x00, 0x01] [] ∧
      ¬∃ r, Returns (fun fuel => callEach (ZStreamDecompressPrivate.decompress Stored.inflate fuel)
        (ZStreamPrivate.new Stored.inflate 4) [[0x78, 0x9c, 0x03, 0x00, 0x00, 0x00, 0x00, 0x01, 0x0a]]) r := by
  refine ⟨Stored.inflate_decompresses, rfl, ?_⟩
  rw [callEach_decompress_iff Stored.inflate_decompresses rfl _ (ready_new _ (by decide)) rfl]
  exact fun hnone => absurd (hnone [0x78, 0x9c, 0x03, 0x00, 0x00, 0x00, 0x00, 0x01] [] rfl (by decide)) (by decide)

-- ---------------------------------------------------------------------------
-- What is reported
-- ---------------------------------------------------------------------------

section

variable {z : ZFunctions σ} {Format : Bytes → Bytes → Prop} {x x' : ZStreamPrivate σ}

open ZStreamPrivate

variable {decoded : Bytes → Bytes} {fault : Bytes → Prop}

end

end Andren.Base
