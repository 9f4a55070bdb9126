import Andren.Base.ZlibStream

/-!
# Compressing with any buffer

`finished` calls `deflate` until the stream is complete, and `deflate` does nothing
without space for its output. With a `CHUNK_SIZE` of 0 there is never any, so the
destructor, if nothing before it, runs forever; with every other size all calls
return, whatever the calls before them returned (`compress_terminates_iff`).
-/

namespace Andren.Base

open Machines

def Z_BUF_ERROR : Int := -5

namespace ZFunctions

/-- The streams in this state have consumed `x` and put out `y`, and are not complete. -/
inductive Deflated (z : ZFunctions σ) : σ → Bytes → Bytes → Prop
  | init : Deflated z z.init.1.state [] []
  | run {s : ZStream σ} {flush : ZFlush} : Deflated z s.state x y →
      s.next_in = used ++ (z.run s flush).stream.next_in → (z.run s flush).ret ≠ Z_STREAM_END →
      Deflated z (z.run s flush).stream.state (x ++ used) (y ++ (z.run s flush).out)

/-- What `deflate` does in any order of calls. Without space it does nothing; with
space it may fail, but does not return `Z_OK` for nothing, and with `Z_FINISH` it
completes the stream or fills the space. -/
structure Compresses (z : ZFunctions σ) : Prop extends z.Advances where
  no_space : ∀ {s : ZStream σ} flush, s.avail_out = 0 → z.run s flush = ⟨s, [], Z_BUF_ERROR⟩
  no_end : ∀ s, (z.run s .Z_NO_FLUSH).ret ≠ Z_STREAM_END
  feed : ∀ {s : ZStream σ} {x y}, z.Deflated s.state x y → s.next_in ≠ [] → 0 < s.avail_out →
    (z.run s .Z_NO_FLUSH).ret = Z_OK →
      (z.run s .Z_NO_FLUSH).stream.next_in ≠ s.next_in ∨ (z.run s .Z_NO_FLUSH).out ≠ []
  finish : ∀ {s : ZStream σ} {x y}, z.init.2 = Z_OK → z.Deflated s.state x y → 0 < s.avail_out →
    (z.run s .Z_FINISH).ret = Z_STREAM_END ∨ (z.run s .Z_FINISH).stream.avail_out = 0
  bounded : ∃ bound : Nat → Nat, ∀ {st x y}, z.Deflated st x y → y.length ≤ bound x.length

/-- The same functions, with the test for space. -/
def spaced (z : ZFunctions σ) : ZFunctions σ :=
  { z with run := fun s flush => if s.avail_out = 0 then ⟨s, [], Z_BUF_ERROR⟩ else z.run s flush }

end ZFunctions

namespace Stored

def Deflating.Bounded (st : Deflating) (x y : Bytes) : Prop :=
  st.finishing = false ∧ st.buffer.length ≤ x.length ∧ y ++ st.pending = [0x78, 0x9c] ∨
    st.finishing = true ∧ (y ++ st.pending).length ≤ 2 * x.length + 9

theorem Deflating.Bounded.add {st : Deflating} (h : st.Bounded x y) (input : Bytes) (flush : ZFlush) :
    (st.add input flush).Bounded (x ++ input) y := by
  have hlength : (x ++ input).length = x.length + input.length := List.length_append
  rcases h with ⟨hfinishing, hbuffer, hpending⟩ | ⟨hfinishing, hput⟩
  · have hbuffer' : (st.buffer ++ input).length ≤ (x ++ input).length := by
      rw [List.length_append, hlength]
      exact Nat.add_le_add_right hbuffer _
    cases flush with
    | Z_NO_FLUSH => exact .inl ⟨hfinishing, hbuffer', hpending⟩
    | Z_FINISH =>
      have hencode : y ++ (st.add input .Z_FINISH).pending = encode (st.buffer ++ input) := by
        simp only [Deflating.add, hfinishing, Bool.false_eq_true, if_false]
        rw [← List.append_assoc, hpending, encode]
      refine .inr ⟨by simp only [Deflating.add, hfinishing, Bool.false_eq_true, if_false], ?_⟩
      rw [hencode]
      have hle := length_encode_le (st.buffer ++ input)
      omega
  · have hput' : (y ++ st.pending).length ≤ 2 * (x ++ input).length + 9 := by omega
    cases flush with
    | Z_NO_FLUSH => exact .inr ⟨hfinishing, hput'⟩
    | Z_FINISH =>
      rw [Deflating.add, if_pos hfinishing]
      exact .inr ⟨hfinishing, hput'⟩

theorem Deflating.Bounded.put {st : Deflating} (h : st.Bounded x y) (n : Nat) :
    { st with pending := st.pending.drop n }.Bounded x (y ++ st.pending.take n) := by
  have hput : y ++ st.pending.take n ++ st.pending.drop n = y ++ st.pending := by
    rw [List.append_assoc, List.take_append_drop]
  rcases h with ⟨hfinishing, hbuffer, hpending⟩ | ⟨hfinishing, hlength⟩
  · exact .inl ⟨hfinishing, hbuffer, hput.trans hpending⟩
  · exact .inr ⟨hfinishing, hput ▸ hlength⟩

theorem deflate_deflated (h : deflate.spaced.Deflated st x y) : st.Bounded x y := by
  induction h with
  | init => exact .inl ⟨rfl, Nat.le_refl _, rfl⟩
  | @run x y used s flush _ hused _ ih =>
    by_cases hspace : s.avail_out = 0
    · simp only [ZFunctions.spaced, if_pos hspace] at hused ⊢
      rw [List.self_eq_append_left.mp hused, List.append_nil, List.append_nil]
      exact ih
    · simp only [ZFunctions.spaced, if_neg hspace] at hused ⊢
      have hall : s.next_in = used := hused.trans (List.append_nil _)
      rw [← hall]
      exact (ih.add s.next_in flush).put s.avail_out

theorem deflate_compresses : deflate.spaced.Compresses where
  next_in s flush := by
    simp only [ZFunctions.spaced]
    split
    · exact List.suffix_rfl
    · exact deflate_deflates.next_in s flush
  avail_out s flush := by
    simp only [ZFunctions.spaced]
    split
    · exact Nat.zero_add _
    · exact deflate_deflates.avail_out s flush
  init := rfl
  no_space flush hspace := if_pos hspace
  no_end s := by
    simp only [ZFunctions.spaced]
    split
    · show Z_BUF_ERROR ≠ Z_STREAM_END
      decide
    · show Z_OK ≠ Z_STREAM_END
      decide
  feed := by
    intro s x y _ hin hspace _
    simp only [ZFunctions.spaced, if_neg (Nat.ne_of_gt hspace)]
    exact .inl hin.symm
  finish := by
    intro s x y _ _ hspace
    simp only [ZFunctions.spaced, if_neg (Nat.ne_of_gt hspace)]
    by_cases hleft : (s.state.add s.next_in .Z_FINISH).pending.drop s.avail_out = []
    · exact .inl (if_pos hleft)
    · have hfull := Nat.le_of_lt (Nat.not_le.mp (mt List.drop_eq_nil_iff.mpr hleft))
      exact .inr (Nat.sub_eq_zero_of_le (Nat.le_of_eq (List.length_take_of_le hfull).symm))
  bounded := by
    refine ⟨fun n => 2 * n + 9, fun {st x y} hdeflated => ?_⟩
    rcases deflate_deflated hdeflated with ⟨-, -, hpending⟩ | ⟨-, hlength⟩
    · have hlength := congrArg List.length hpending
      rw [List.length_append, List.length_cons, List.length_cons, List.length_nil] at hlength
      show y.length ≤ 2 * x.length + 9
      omega
    · rw [List.length_append] at hlength
      exact Nat.le_of_add_right_le hlength

end Stored

-- ---------------------------------------------------------------------------
-- The life of a stream
-- ---------------------------------------------------------------------------

inductive ZStreamCall
  | compress (data : Bytes)
  | finished

namespace ZStreamCompressPrivate

def call (z : ZFunctions σ) (fuel : Nat) (x : ZStreamPrivate σ) : ZStreamCall → Option (ZStreamPrivate σ)
  | .compress data => (compress z fuel x data).map Prod.snd
  | .finished => (finished z fuel x).map Prod.snd

def calls (z : ZFunctions σ) (fuel : Nat) : ZStreamPrivate σ → List ZStreamCall → Option (ZStreamPrivate σ)
  | x, [] => some x
  | x, c :: rest => (call z fuel x c).bind (calls z fuel · rest)

def life (z : ZFunctions σ) (CHUNK_SIZE : UInt32) (cs : List ZStreamCall) (fuel : Nat) :
    Option (ZStreamPrivate σ) :=
  (calls z fuel (.new z CHUNK_SIZE) cs).bind (call z fuel · .finished)

end ZStreamCompressPrivate

section

variable {z : ZFunctions σ} {x x' : ZStreamPrivate σ}

open ZStreamPrivate ZStreamCompressPrivate

structure Compressing (z : ZFunctions σ) (x : ZStreamPrivate σ) (X : Bytes) : Prop where
  deflated : ∃ y, z.Deflated x.stream.state X y ∧ x.m_data.length ≤ y.length
  space : 0 < x.tmp.length

-- ---------------------------------------------------------------------------
-- One pass
-- ---------------------------------------------------------------------------

theorem compressing_run (hz : z.Advances) (hx : Compressing z x X) (flush : ZFlush)
    (hend : (x.called z flush).ret ≠ Z_STREAM_END) :
    ∃ used, x.stream.next_in = used ++ (x.run z flush).1.stream.next_in ∧
      Compressing z (x.run z flush).1 (X ++ used) ∧ Compressing z (x.run z flush).1.append (X ++ used) := by
  obtain ⟨used, hused⟩ := hz.next_in { x.stream with avail_out := x.tmp.length } flush
  obtain ⟨hdata, hlength⟩ := append_run hz x flush
  obtain ⟨y, hdeflated, hle⟩ := hx.deflated
  have hdeflated' : z.Deflated (x.called z flush).stream.state (X ++ used) (y ++ (x.called z flush).out) :=
    .run (s := { x.stream with avail_out := x.tmp.length }) hdeflated hused.symm hend
  have hspace : 0 < (x.run z flush).1.tmp.length := Nat.lt_of_lt_of_eq hx.space hlength.symm
  refine ⟨used, hused.symm, ⟨⟨_, hdeflated', ?_⟩, hspace⟩, ⟨_, hdeflated', ?_⟩, hspace⟩
  · rw [List.length_append]
    exact Nat.le_trans hle (Nat.le_add_right ..)
  · rw [hdata, List.length_append, List.length_append]
    exact Nat.add_le_add_right hle _

/-- The variant of both loops: a pass consumes input, or `m_data` grows, up to `bound`
of the input consumed. -/
def left (bound : Nat → Nat) (T : Bytes) (x : ZStreamPrivate σ) : Nat × Nat :=
  (x.stream.next_in.length, bound (T.length - x.stream.next_in.length) - x.m_data.length)

theorem left_lt {bound : Nat → Nat} (hbound : ∀ {st x y}, z.Deflated st x y → y.length ≤ bound x.length)
    (hT : X ++ x.stream.next_in = T) (hused : x.stream.next_in = used ++ x'.stream.next_in)
    (hx' : Compressing z x' (X ++ used)) (hgrown : used = [] → x.m_data.length < x'.m_data.length) :
    Prod.Lex (· < ·) (· < ·) (left bound T x') (left bound T x) := by
  cases used with
  | cons b front =>
    have hlength := congrArg List.length hused
    rw [List.length_append] at hlength
    exact Prod.lex_def.mpr (.inl (Nat.lt_of_lt_of_eq (Nat.lt_add_of_pos_left (Nat.succ_pos _)) hlength.symm))
  | nil =>
    obtain ⟨y, hdeflated, hle⟩ := hx'.deflated
    have hlength : X.length = T.length - x.stream.next_in.length := by
      rw [← hT, List.length_append, Nat.add_sub_cancel]
    have hmost := Nat.le_trans hle (hbound hdeflated)
    rw [List.append_nil, hlength] at hmost
    rw [List.nil_append] at hused
    refine Prod.lex_def.mpr (.inr ?_)
    simp only [left, ← hused, true_and]
    exact Nat.sub_lt_sub_left (Nat.lt_of_lt_of_le (hgrown rfl) hmost) (hgrown rfl)

-- ---------------------------------------------------------------------------
-- With space
-- ---------------------------------------------------------------------------

theorem compress_valid (hvalid : x.m_valid = true) (data : Bytes) (fuel : Nat) :
    compress z fuel x data = loop (compressBody z) fuel (x.setInput data) :=
  if_neg fun h => Bool.false_ne_true (h.symm.trans hvalid)

theorem compressBody_eq (z : ZFunctions σ) (hin : x.stream.next_in ≠ []) :
    compressBody z x = if (x.called z .Z_NO_FLUSH).ret = Z_OK then .inl (x.run z .Z_NO_FLUSH).1.append
      else .inr (-2, (x.run z .Z_NO_FLUSH).1) := by
  rw [compressBody, feedBody, if_pos (List.length_pos_iff.mpr hin)]
  by_cases hok : (x.called z .Z_NO_FLUSH).ret = Z_OK
  · rw [if_pos hok]
    exact if_neg (by simp [hok])
  · rw [if_neg hok]
    exact if_pos (by simp [hok])

/-- Whatever `deflate` returns, `compress` returns, and the stream can be used again. -/
theorem compress_ends (hz : z.Compresses) (hx : Compressing z x X) (hvalid : x.m_valid = true) (data : Bytes) :
    ∃ r, Returns (compress z · x data) r ∧ r.2.m_valid = true ∧ ∃ X', Compressing z r.2 X' := by
  obtain ⟨bound, hbound⟩ := hz.bounded
  simp only [compress_valid hvalid]
  refine loop_returns (compressBody z)
    (I := fun x => x.m_valid = true ∧ ∃ X', Compressing z x X' ∧ X' ++ x.stream.next_in = X ++ inputOf data)
    (Prod.lex Nat.lt_wfRel Nat.lt_wfRel).wf (left bound (X ++ inputOf data)) ?_
    ⟨hvalid, X, ⟨hx.deflated, hx.space⟩, rfl⟩
  rintro x ⟨hvalid, X, hx, hT⟩
  by_cases hin : x.stream.next_in = []
  · exact .inr ⟨_, feedBody_nil hin, hvalid, X, hx⟩
  obtain ⟨used, hused, hfailed, hx'⟩ := compressing_run hz.toAdvances hx .Z_NO_FLUSH (hz.no_end _)
  have hbody := compressBody_eq z hin
  by_cases hok : (x.called z .Z_NO_FLUSH).ret = Z_OK
  · rw [if_pos hok] at hbody
    refine .inl ⟨_, hbody, ⟨hvalid, _, hx', ?_⟩, left_lt hbound hT hused hx' ?_⟩
    · rw [← hT, List.append_assoc]
      exact congrArg (X ++ ·) hused.symm
    · rintro rfl
      obtain ⟨y, hdeflated, -⟩ := hx.deflated
      have hout : (x.called z .Z_NO_FLUSH).out ≠ [] :=
        (hz.feed (s := { x.stream with avail_out := x.tmp.length }) hdeflated hin hx.space hok).resolve_left
          fun hne => hne hused.symm
      rw [(append_run hz.toAdvances x .Z_NO_FLUSH).1, List.length_append]
      exact Nat.lt_add_of_pos_right (List.length_pos_iff.mpr hout)
  · rw [if_neg hok] at hbody
    exact .inr ⟨_, hbody, hvalid, _, hfailed⟩

/-- `finished` takes what a failed call has left of the input, too. -/
theorem finished_ends (hz : z.Compresses) (hinit : z.init.2 = Z_OK) (hx : Compressing z x X)
    (hvalid : x.m_valid = true) : ∃ r, Returns (finished z · x) r ∧ r.2.m_valid = false := by
  obtain ⟨bound, hbound⟩ := hz.bounded
  have hloop : ∃ x', Returns (loop (finishedBody z) · x) x' ∧ True := by
    refine loop_returns (finishedBody z)
      (I := fun x' => ∃ X', Compressing z x' X' ∧ X' ++ x'.stream.next_in = X ++ x.stream.next_in)
      (Prod.lex Nat.lt_wfRel Nat.lt_wfRel).wf (left bound (X ++ x.stream.next_in)) ?_ ⟨X, hx, rfl⟩
    rintro x ⟨X, hx, hT⟩
    by_cases hend : (x.called z .Z_FINISH).ret = Z_STREAM_END
    · exact .inr ⟨_, if_neg (not_not.mpr hend), trivial⟩
    obtain ⟨used, hused, -, hx'⟩ := compressing_run hz.toAdvances hx .Z_FINISH hend
    refine .inl ⟨_, if_pos hend, ⟨_, hx', ?_⟩, left_lt hbound hT hused hx' fun _ => ?_⟩
    · rw [← hT, List.append_assoc]
      exact congrArg (X ++ ·) hused.symm
    · obtain ⟨y, hdeflated, -⟩ := hx.deflated
      have hfull := (hz.finish (s := { x.stream with avail_out := x.tmp.length }) hinit hdeflated
        hx.space).resolve_left hend
      have hput := hz.avail_out { x.stream with avail_out := x.tmp.length } .Z_FINISH
      rw [hfull, Nat.add_zero] at hput
      have hgrown : x.m_data.length < (x.run z .Z_FINISH).1.append.m_data.length := by
        rw [(append_run hz.toAdvances x .Z_FINISH).1, List.length_append]
        exact Nat.lt_add_of_pos_right (Nat.lt_of_lt_of_eq hx.space hput.symm)
      exact hgrown
  obtain ⟨x', ⟨fuel, hx'⟩, -⟩ := hloop
  refine ⟨(x'.m_data, { x' with stream := (z.close x'.stream).1, m_data := [], m_valid := false }),
    ⟨fuel, ?_⟩, rfl⟩
  simp only [finished, hvalid, Bool.not_true, Bool.false_eq_true, if_false, Option.bind_eq_bind]
  exact Option.bind_eq_some_iff.mpr ⟨x', hx', rfl⟩

theorem call_invalid (hvalid : x.m_valid = false) (c : ZStreamCall) : Returns (call z · x c) x := by
  cases c with
  | compress data => exact ⟨0, by simp only [call, compress, hvalid, if_true, Option.map_some]⟩
  | finished => exact ⟨0, by simp only [call, finished, hvalid, Bool.not_false, if_true, Option.map_some]⟩

def Usable (z : ZFunctions σ) (x : ZStreamPrivate σ) : Prop :=
  x.m_valid = false ∨ z.init.2 = Z_OK ∧ ∃ X, Compressing z x X

theorem call_ends (hz : z.Compresses) (hx : Usable z x) (c : ZStreamCall) :
    ∃ x', Returns (call z · x c) x' ∧ Usable z x' := by
  cases hvalid : x.m_valid with
  | false => exact ⟨x, call_invalid hvalid c, .inl hvalid⟩
  | true =>
    obtain ⟨hinit, X, hx⟩ := hx.resolve_left (ne_false_of_eq_true hvalid)
    cases c with
    | compress data =>
      obtain ⟨r, ⟨fuel, hr⟩, -, hX⟩ := compress_ends hz hx hvalid data
      exact ⟨r.2, ⟨fuel, congrArg (Option.map Prod.snd) hr⟩, .inr ⟨hinit, hX⟩⟩
    | finished =>
      obtain ⟨r, ⟨fuel, hr⟩, hvalid'⟩ := finished_ends hz hinit hx hvalid
      exact ⟨r.2, ⟨fuel, congrArg (Option.map Prod.snd) hr⟩, .inl hvalid'⟩

theorem steady_map {f : Nat → Option ρ} (hf : Steady f) (g : ρ → τ) : Steady fun fuel => (f fuel).map g := by
  intro fuel fuel' t hle h
  obtain ⟨r, hr, rfl⟩ := Option.map_eq_some_iff.mp h
  exact Option.map_eq_some_iff.mpr ⟨r, hf _ _ _ hle hr, rfl⟩

theorem call_steady (z : ZFunctions σ) (x : ZStreamPrivate σ) (c : ZStreamCall) : Steady (call z · x c) := by
  cases c with
  | compress data => exact steady_map (compress_steady z x data) _
  | finished => exact steady_map (compress_finished_steady z x) _

theorem calls_steady (z : ZFunctions σ) (cs : List ZStreamCall) : ∀ x, Steady (calls z · x cs) := by
  induction cs with
  | nil => exact fun _ => steady_const _
  | cons c rest ih => exact fun x => (call_steady z x c).bind fun x' => ih x'

theorem calls_end (hz : z.Compresses) (cs : List ZStreamCall) : ∀ {x}, Usable z x →
    ∃ x', Returns (calls z · x cs) x' ∧ Usable z x' := by
  induction cs with
  | nil => exact fun hx => ⟨_, returns_const _, hx⟩
  | cons c rest ih =>
    intro x hx
    obtain ⟨x', hfirst, hx'⟩ := call_ends hz hx c
    obtain ⟨x'', hrest, hx''⟩ := ih hx'
    exact ⟨x'', hfirst.bind (call_steady z x c) (calls_steady z rest x') hrest, hx''⟩

theorem life_returns (hz : z.Compresses) (cs : List ZStreamCall) (hnew : Usable z (new z CHUNK_SIZE)) :
    ∃ x, Returns (ZStreamCompressPrivate.life z CHUNK_SIZE cs) x := by
  obtain ⟨x, hcalls, hx⟩ := calls_end hz cs hnew
  obtain ⟨x', hfinished, -⟩ := call_ends hz hx .finished
  exact ⟨x', hcalls.bind (calls_steady z cs _) (call_steady z x .finished) hfinished⟩

-- ---------------------------------------------------------------------------
-- Without space
-- ---------------------------------------------------------------------------

def NoSpace (x : ZStreamPrivate σ) : Prop := x.m_valid = true ∧ x.tmp.length = 0

theorem noSpace_run (hz : z.Advances) (hx : NoSpace x) (flush : ZFlush) :
    NoSpace (x.run z flush).1 ∧ NoSpace (x.run z flush).1.append :=
  ⟨⟨hx.1, (append_run hz x flush).2.trans hx.2⟩, hx.1, (append_run hz x flush).2.trans hx.2⟩

theorem finished_diverges (hz : z.Compresses) (hx : NoSpace x) (x' : ZStreamPrivate σ) :
    ¬Returns (call z · x .finished) x' := by
  rintro ⟨fuel, h⟩
  obtain ⟨r, hr, -⟩ := Option.map_eq_some_iff.mp h
  simp only [finished, hx.1, Bool.not_true, Bool.false_eq_true, if_false, Option.bind_eq_bind] at hr
  obtain ⟨x₁, hloop, -⟩ := Option.bind_eq_some_iff.mp hr
  refine loop_diverges (finishedBody z) (I := NoSpace) (fun x hx => ?_) hx x₁ ⟨fuel, hloop⟩
  have hret : (x.called z .Z_FINISH).ret ≠ Z_STREAM_END := by
    rw [called, hz.no_space .Z_FINISH hx.2]
    show Z_BUF_ERROR ≠ Z_STREAM_END
    decide
  exact ⟨_, if_pos hret, (noSpace_run hz.toAdvances hx .Z_FINISH).2⟩

theorem call_noSpace (hz : z.Compresses) (hx : NoSpace x) (h : Returns (call z · x c) x') : NoSpace x' := by
  cases c with
  | finished => exact absurd h (finished_diverges hz hx x')
  | compress data =>
    obtain ⟨fuel, h⟩ := h
    obtain ⟨r, hr, rfl⟩ := Option.map_eq_some_iff.mp h
    rw [compress_valid hx.1] at hr
    refine loop_invariant (compressBody z) (s := x.setInput data) (I := NoSpace)
      (Q := fun r => NoSpace r.2) ?_ ?_ hx ⟨fuel, hr⟩
    · intro x x' hx hbody
      by_cases hin : x.stream.next_in = []
      · exact nomatch hbody.symm.trans (feedBody_nil hin)
      rw [compressBody_eq z hin] at hbody
      split at hbody
      · cases hbody
        exact (noSpace_run hz.toAdvances hx .Z_NO_FLUSH).2
      · cases hbody
    · intro x r hx hbody
      by_cases hin : x.stream.next_in = []
      · cases (feedBody_nil hin).symm.trans hbody
        exact hx
      rw [compressBody_eq z hin] at hbody
      split at hbody
      · cases hbody
      · cases hbody
        exact (noSpace_run hz.toAdvances hx .Z_NO_FLUSH).1

theorem calls_noSpace (hz : z.Compresses) (cs : List ZStreamCall) : ∀ {x x'}, NoSpace x →
    Returns (calls z · x cs) x' → NoSpace x' := by
  induction cs with
  | nil =>
    rintro x x' hx ⟨fuel, h⟩
    exact Option.some.inj h ▸ hx
  | cons c rest ih =>
    rintro x x' hx ⟨fuel, h⟩
    obtain ⟨x₁, hfirst, hrest⟩ := Option.bind_eq_some_iff.mp h
    exact ih (call_noSpace hz hx ⟨fuel, hfirst⟩) ⟨fuel, hrest⟩

theorem life_diverges (hz : z.Compresses) (cs : List ZStreamCall) (hnew : NoSpace (new z CHUNK_SIZE))
    (x : ZStreamPrivate σ) : ¬Returns (ZStreamCompressPrivate.life z CHUNK_SIZE cs) x := by
  rintro ⟨fuel, h⟩
  obtain ⟨x₁, hcalls, hfinished⟩ := Option.bind_eq_some_iff.mp h
  exact finished_diverges hz (calls_noSpace hz cs hnew ⟨fuel, hcalls⟩) x ⟨fuel, hfinished⟩

end

/-- Every call, and the destructor, returns for every size but 0, and for 0 when there
is no stream to complete. -/
theorem compress_terminates_iff {z : ZFunctions σ} (hz : z.Compresses) (CHUNK_SIZE : UInt32)
    (cs : List ZStreamCall) :
    (∃ x, Returns (ZStreamCompressPrivate.life z CHUNK_SIZE cs) x) ↔ 0 < CHUNK_SIZE ∨ z.init.2 ≠ Z_OK := by
  have hlength : (ZStreamPrivate.new z CHUNK_SIZE).tmp.length = CHUNK_SIZE.toNat := List.length_replicate
  by_cases hinit : z.init.2 = Z_OK
  · have hvalid : (ZStreamPrivate.new z CHUNK_SIZE).m_valid = true := beq_iff_eq.mpr hinit
    by_cases hsize : 0 < CHUNK_SIZE
    · have hspace : 0 < (ZStreamPrivate.new z CHUNK_SIZE).tmp.length := by
        rw [hlength]
        exact UInt32.lt_iff_toNat_lt.mp hsize
      exact iff_of_true (life_returns hz cs (.inr ⟨hinit, [], ⟨[], .init, Nat.le_refl _⟩, hspace⟩)) (.inl hsize)
    · have hzero : CHUNK_SIZE.toNat = 0 := by
        rw [UInt32.lt_iff_toNat_lt] at hsize
        exact Nat.eq_zero_of_not_pos hsize
      refine iff_of_false ?_ fun h => h.elim hsize fun hne => hne hinit
      rintro ⟨x, hx⟩
      exact life_diverges hz cs ⟨hvalid, hlength.trans hzero⟩ x hx
  · exact iff_of_true (life_returns hz cs (.inl (beq_eq_false_iff_ne.mpr hinit))) (.inr hinit)

theorem compress_terminates_iff_letter : ∃ x, Returns
    (ZStreamCompressPrivate.life Stored.deflate.spaced 8 [.compress [0x61], .finished, .compress [0x61]]) x :=
  (compress_terminates_iff Stored.deflate_compresses 8 _).mpr (.inl (by decide))

theorem compress_hangs : Stored.deflate.spaced.Compresses ∧
    ∀ x, ¬Returns (ZStreamCompressPrivate.life Stored.deflate.spaced 0 []) x :=
  ⟨Stored.deflate_compresses, life_diverges Stored.deflate_compresses [] ⟨rfl, rfl⟩⟩

end Andren.Base
