import Andren.Base.Zlib
import Andren.Machine.Loop
import Mathlib.Algebra.Ring.Nat

/-!
# Streams through zlib

`ZStreamCompressPrivate` and `ZStreamDecompressPrivate` pass the strings of their
caller to zlib and its output through `tmp` to `m_data`. For every size of `tmp` but
0 the loops end, and no output is lost where one string ends and the next begins.
But `avail_in` has 32 bits: `zlib_round_trip_iff` says that data comes back from
short pieces just when no string of it has 2 ^ 32 bytes or more.
-/

namespace Andren.Base

open Machines

-- ---------------------------------------------------------------------------
-- The streams
-- ---------------------------------------------------------------------------

structure ZStreamPrivate (σ : Type u) where
  stream : ZStream σ
  m_data : Bytes
  tmp : Bytes
  m_valid : Bool

namespace ZStreamPrivate

def new (z : ZFunctions σ) (CHUNK_SIZE : UInt32) : ZStreamPrivate σ :=
  ⟨z.init.1, [], List.replicate CHUNK_SIZE.toNat 0, z.init.2 == Z_OK⟩

/-- `avail_in` is a 32-bit number. -/
def inputOf (data : Bytes) : Bytes := data.take (data.length % 2 ^ 32)

theorem inputOf_short (h : data.length < 2 ^ 32) : inputOf data = data := by
  rw [inputOf, Nat.mod_eq_of_lt h, List.take_length]

theorem length_inputOf_lt (data : Bytes) : (inputOf data).length < 2 ^ 32 := by
  rw [inputOf, List.length_take]
  exact Nat.lt_of_le_of_lt (Nat.min_le_left ..) (Nat.mod_lt _ (by decide))

theorem length_inputOf_le (data : Bytes) : (inputOf data).length ≤ data.length := by
  rw [inputOf, List.length_take]
  exact Nat.min_le_right ..

theorem map_inputOf_short {strings : List Bytes} (h : ∀ data ∈ strings, data.length < 2 ^ 32) :
    strings.map inputOf = strings :=
  (List.map_congr_left fun data hdata => inputOf_short (h data hdata)).trans strings.map_id

theorem length_inputs_le (strings : List Bytes) :
    (strings.map inputOf).flatten.length ≤ strings.flatten.length := by
  induction strings with
  | nil => exact Nat.le_refl _
  | cons data rest ih =>
    simp only [List.map_cons, List.flatten_cons, List.length_append]
    exact Nat.add_le_add (length_inputOf_le data) ih

/-- Nothing is cut off just when no string is too long. -/
theorem flatten_inputs_iff (strings : List Bytes) :
    (strings.map inputOf).flatten = strings.flatten ↔ ∀ data ∈ strings, data.length < 2 ^ 32 := by
  refine ⟨fun h => ?_, fun h => by rw [map_inputOf_short h]⟩
  induction strings with
  | nil => nofun
  | cons data rest ih =>
    rw [List.map_cons, List.flatten_cons, List.flatten_cons] at h
    have hlength := congrArg List.length h
    rw [List.length_append, List.length_append] at hlength
    have hdata := length_inputOf_le data
    have hrest := length_inputs_le rest
    obtain ⟨heq, hflatten⟩ := List.append_inj h (by omega)
    exact List.forall_mem_cons.mpr ⟨heq ▸ length_inputOf_lt data, ih hflatten⟩

def setInput (x : ZStreamPrivate σ) (data : Bytes) : ZStreamPrivate σ :=
  { x with stream := { x.stream with next_in := inputOf data } }

def called (z : ZFunctions σ) (x : ZStreamPrivate σ) (flush : ZFlush) : ZCall σ :=
  z.run { x.stream with avail_out := x.tmp.length } flush

def run (z : ZFunctions σ) (x : ZStreamPrivate σ) (flush : ZFlush) : ZStreamPrivate σ × Int :=
  let call := x.called z flush
  ({ x with stream := call.stream, tmp := call.out ++ x.tmp.drop call.out.length }, call.ret)

def append (x : ZStreamPrivate σ) : ZStreamPrivate σ :=
  let usedSize := x.tmp.length - x.stream.avail_out
  { x with m_data := x.m_data ++ x.tmp.take usedSize }

/-- The loop over the input, which a call that `fails` leaves. -/
def feedBody (z : ZFunctions σ) (fails : Int → Bool) (x : ZStreamPrivate σ) :
    ZStreamPrivate σ ⊕ (Int × ZStreamPrivate σ) :=
  if x.stream.next_in.length > 0 then
    let (x, ret) := x.run z .Z_NO_FLUSH
    if fails ret then .inr (-2, x) else .inl x.append
  else .inr (0, x)

end ZStreamPrivate

namespace ZStreamCompressPrivate

def finishedBody (z : ZFunctions σ) (x : ZStreamPrivate σ) : ZStreamPrivate σ ⊕ ZStreamPrivate σ :=
  let (x, ret) := x.run z .Z_FINISH
  let x := x.append
  if ret ≠ Z_STREAM_END then .inl x else .inr x

def finished (z : ZFunctions σ) (fuel : Nat) (x : ZStreamPrivate σ) : Option (Bytes × ZStreamPrivate σ) :=
  if !x.m_valid then some ([], x)
  else do
    let x ← loop (finishedBody z) fuel x
    let (stream, _) := z.close x.stream
    pure (x.m_data, { x with stream, m_data := [], m_valid := false })

def compressBody (z : ZFunctions σ) : ZStreamPrivate σ → ZStreamPrivate σ ⊕ (Int × ZStreamPrivate σ) :=
  ZStreamPrivate.feedBody z (· != Z_OK)

def compress (z : ZFunctions σ) (fuel : Nat) (x : ZStreamPrivate σ) (data : Bytes) :
    Option (Int × ZStreamPrivate σ) :=
  if x.m_valid = false then some (-1, x) else loop (compressBody z) fuel (x.setInput data)

end ZStreamCompressPrivate

namespace ZStreamDecompressPrivate

/-- What the call of `inflate` puts out here is not read. -/
def finished (z : ZFunctions σ) (x : ZStreamPrivate σ) : Bytes × ZStreamPrivate σ :=
  if !x.m_valid then ([], x)
  else
    let call := z.run { x.stream with next_in := [] } .Z_FINISH
    let (stream, ret) := z.close call.stream
    let x := { x with stream, m_valid := false }
    if ret = 0 then (x.m_data, { x with m_data := [] }) else ([], x)

def decompressBody (z : ZFunctions σ) : ZStreamPrivate σ → ZStreamPrivate σ ⊕ (Int × ZStreamPrivate σ) :=
  ZStreamPrivate.feedBody z fun ret => ret != Z_OK && ret != Z_STREAM_END

def decompress (z : ZFunctions σ) (fuel : Nat) (x : ZStreamPrivate σ) (data : Bytes) :
    Option (Int × ZStreamPrivate σ) :=
  if x.m_valid = false ∧ data.length ≤ 0 then some (-1, x) else loop (decompressBody z) fuel (x.setInput data)

end ZStreamDecompressPrivate

-- ---------------------------------------------------------------------------
-- There and back
-- ---------------------------------------------------------------------------

def callEach (call : ZStreamPrivate σ → Bytes → Option (Int × ZStreamPrivate σ)) :
    ZStreamPrivate σ → List Bytes → Option (List Int × ZStreamPrivate σ)
  | x, [] => some ([], x)
  | x, data :: rest => do
    let (ret, x) ← call x data
    let (rets, x) ← callEach call x rest
    pure (ret :: rets, x)

structure Cutting where
  pieces : Bytes → List Bytes
  flatten_pieces : ∀ c, (pieces c).flatten = c

def compressAll (deflate : ZFunctions σ) (CHUNK_SIZE : UInt32) (data : List Bytes) (fuel : Nat) :
    Option (List Int × Bytes) := do
  let (rets, x) ← callEach (ZStreamCompressPrivate.compress deflate fuel) (.new deflate CHUNK_SIZE) data
  let (c, _) ← ZStreamCompressPrivate.finished deflate fuel x
  pure (rets, c)

def decompressAll (inflate : ZFunctions τ) (CHUNK_SIZE : UInt32) (pieces : List Bytes) (fuel : Nat) :
    Option (List Int × Bytes) := do
  let (rets, x) ← callEach (ZStreamDecompressPrivate.decompress inflate fuel) (.new inflate CHUNK_SIZE) pieces
  pure (rets, (ZStreamDecompressPrivate.finished inflate x).1)

def roundTrip (deflate : ZFunctions σ) (inflate : ZFunctions τ) (compressSize decompressSize : UInt32)
    (data : List Bytes) (cut : Cutting) (fuel : Nat) : Option (List Int × Bytes) := do
  let (rets, c) ← compressAll deflate compressSize data fuel
  let (rets', d) ← decompressAll inflate decompressSize (cut.pieces c) fuel
  pure (rets ++ rets', d)

/-- All calls return 0 and the data comes back. -/
def RoundTrips (deflate : ZFunctions σ) (inflate : ZFunctions τ) (compressSize decompressSize : UInt32)
    (data : List Bytes) (cut : Cutting) : Prop :=
  ∃ rets, Returns (roundTrip deflate inflate compressSize decompressSize data cut) (rets, data.flatten) ∧
    ∀ ret ∈ rets, ret = 0

-- ---------------------------------------------------------------------------
-- One call
-- ---------------------------------------------------------------------------

namespace ZStreamPrivate

variable {z : ZFunctions σ}

theorem append_run (hz : z.Advances) (x : ZStreamPrivate σ) (flush : ZFlush) :
    (x.run z flush).1.append.m_data = x.m_data ++ (x.called z flush).out ∧
      (x.run z flush).1.tmp.length = x.tmp.length := by
  have hspace : (x.called z flush).out.length + (x.called z flush).stream.avail_out = x.tmp.length :=
    hz.avail_out _ flush
  have hlength : (x.run z flush).1.tmp.length = x.tmp.length := by
    simp only [run, List.length_append, List.length_drop]
    omega
  have hused : (x.run z flush).1.tmp.length - (x.run z flush).1.stream.avail_out =
      (x.called z flush).out.length := by
    rw [hlength]
    exact Nat.sub_eq_of_eq_add hspace.symm
  refine ⟨?_, hlength⟩
  rw [append, hused, run, List.take_left' rfl]

structure Holds (z : ZFunctions σ) (x : ZStreamPrivate σ) (X : Bytes) : Prop where
  fed : z.Fed x.stream.state X x.m_data
  valid : x.m_valid = true
  space : 0 < x.tmp.length

theorem feedBody_nil {x : ZStreamPrivate σ} (hin : x.stream.next_in = []) :
    feedBody z fails x = .inr (0, x) := by
  rw [feedBody, hin]
  rfl

/-- A pass with input left: it consumes `used`, or puts something out. -/
theorem feedBody_run (hz : z.Advances) (hx : Holds z x X) (hin : x.stream.next_in ≠ [])
    (hfails : fails (x.called z .Z_NO_FLUSH).ret = false)
    (hprogress : (x.called z .Z_NO_FLUSH).stream.next_in ≠ x.stream.next_in ∨
      (x.called z .Z_NO_FLUSH).out ≠ []) :
    ∃ x' used, feedBody z fails x = .inl x' ∧ Holds z x' (X ++ used) ∧
      x.stream.next_in = used ++ x'.stream.next_in ∧ (used = [] → x.m_data.length < x'.m_data.length) := by
  obtain ⟨used, hused⟩ := hz.next_in { x.stream with avail_out := x.tmp.length } .Z_NO_FLUSH
  obtain ⟨hdata, hlength⟩ := append_run hz x .Z_NO_FLUSH
  refine ⟨(x.run z .Z_NO_FLUSH).1.append, used, ?_, ⟨?_, hx.valid, ?_⟩, hused.symm, ?_⟩
  · rw [feedBody, if_pos (List.length_pos_iff.mpr hin)]
    exact if_neg (ne_true_of_eq_false hfails)
  · rw [hdata]
    exact .run (s := { x.stream with avail_out := x.tmp.length }) hx.fed hin hx.space hused.symm
  · exact Nat.lt_of_lt_of_eq hx.space hlength.symm
  · rintro rfl
    have hout := List.length_pos_iff.mpr (hprogress.resolve_left fun hne => hne hused)
    rw [hdata, List.length_append]
    exact Nat.lt_add_of_pos_right hout

/-- The loop over the input takes all of it when no call fails and each goes on;
`bound` is for what has been put out when so much input is left. -/
theorem feed_returns (hz : z.Advances) (fails : Int → Bool) (bound : Nat → Nat)
    (hgo : ∀ (s : ZStream σ) X y, z.Fed s.state X y → s.next_in ≠ [] → X ++ s.next_in = T → 0 < s.avail_out →
      fails (z.run s .Z_NO_FLUSH).ret = false ∧
        ((z.run s .Z_NO_FLUSH).stream.next_in ≠ s.next_in ∨ (z.run s .Z_NO_FLUSH).out ≠ []))
    (hbound : ∀ st X y rest, z.Fed st X y → X ++ rest = T → y.length ≤ bound rest.length)
    (hx : Holds z x X) (hT : X ++ x.stream.next_in = T) :
    ∃ x', Returns (loop (feedBody z fails) · x) (0, x') ∧ Holds z x' T ∧ x'.stream.next_in = [] := by
  have hleaves := loop_returns (feedBody z fails)
    (I := fun x => ∃ X, Holds z x X ∧ X ++ x.stream.next_in = T)
    (Q := fun r => r.1 = 0 ∧ Holds z r.2 T ∧ r.2.stream.next_in = [])
    (Prod.lex Nat.lt_wfRel Nat.lt_wfRel).wf
    (fun x => (x.stream.next_in.length, bound x.stream.next_in.length - x.m_data.length)) ?_ ⟨X, hx, hT⟩
  · obtain ⟨⟨ret, x'⟩, hreturns, rfl, hx'⟩ := hleaves
    exact ⟨x', hreturns, hx'⟩
  · rintro x ⟨X, hx, hT⟩
    by_cases hin : x.stream.next_in = []
    · refine .inr ⟨_, feedBody_nil hin, rfl, ?_, hin⟩
      rw [hin, List.append_nil] at hT
      exact hT ▸ hx
    · obtain ⟨hfails, hprogress⟩ := hgo { x.stream with avail_out := x.tmp.length } X _ hx.fed hin hT hx.space
      obtain ⟨x', used, hbody, hx', hused, hgrown⟩ := feedBody_run hz hx hin hfails hprogress
      have hT' : X ++ used ++ x'.stream.next_in = T := by
        rw [List.append_assoc, ← hused, hT]
      refine .inl ⟨x', hbody, ⟨X ++ used, hx', hT'⟩, Prod.lex_def.mpr ?_⟩
      cases used with
      | nil =>
        have hmost := hbound _ _ _ _ hx'.fed hT'
        rw [show x.stream.next_in = x'.stream.next_in from hused]
        exact .inr ⟨rfl, Nat.sub_lt_sub_left (Nat.lt_of_lt_of_le (hgrown rfl) hmost) (hgrown rfl)⟩
      | cons b front =>
        have hlength := congrArg List.length hused
        rw [List.length_append] at hlength
        exact .inl (Nat.lt_of_lt_of_eq (Nat.lt_add_of_pos_left (Nat.succ_pos _)) hlength.symm)

structure Idle (z : ZFunctions σ) (x : ZStreamPrivate σ) (X : Bytes) : Prop extends Holds z x X where
  next_in : x.stream.next_in = []

theorem idle_new (hz : z.Advances) (hok : z.init.2 = Z_OK) (hsize : 0 < CHUNK_SIZE) :
    Idle z (new z CHUNK_SIZE) [] := by
  refine ⟨⟨.init, by rw [new, hok]; rfl, ?_⟩, hz.init⟩
  rw [new, List.length_replicate]
  exact UInt32.lt_iff_toNat_lt.mp hsize

theorem Idle.setInput (hx : Idle z x X) (data : Bytes) : Holds z (x.setInput data) X :=
  ⟨hx.fed, hx.valid, hx.space⟩

end ZStreamPrivate

-- ---------------------------------------------------------------------------
-- The functions of the streams
-- ---------------------------------------------------------------------------

theorem compress_returns {deflate : ZFunctions σ} (hz : deflate.Deflates Format) (hx : x.Idle deflate X)
    (data : Bytes) : ∃ x', Returns (ZStreamCompressPrivate.compress deflate · x data) (0, x') ∧
      x'.Idle deflate (X ++ ZStreamPrivate.inputOf data) := by
  obtain ⟨bound, hbound⟩ := hz.bounded
  have hfeeds := ZStreamPrivate.feed_returns hz.toAdvances (· != Z_OK)
    (fun rest => bound ((X ++ ZStreamPrivate.inputOf data).length - rest)) ?_ ?_ (hx.setInput data) rfl
  · obtain ⟨x', hreturns, hx', hin⟩ := hfeeds
    refine ⟨x', ?_, hx', hin⟩
    simp only [ZStreamCompressPrivate.compress, hx.valid, Bool.true_eq_false, if_false]
    exact hreturns
  · intro s X y hfed hin _ hspace
    obtain ⟨hret, hprogress⟩ := hz.feed hfed hin hspace
    exact ⟨by simp [hret], hprogress⟩
  · intro st front y rest hfed heq
    have hlength : front.length = (X ++ ZStreamPrivate.inputOf data).length - rest.length := by
      refine Nat.eq_sub_of_add_eq ?_
      rw [← List.length_append, heq]
      rfl
    exact hlength ▸ hbound (.fed hfed)

theorem decompress_returns {inflate : ZFunctions τ} (hz : inflate.Inflates Format) (hc : Format c d)
    (hx : x.Idle inflate P) (data : Bytes) (hfront : P ++ ZStreamPrivate.inputOf data <+: c) :
    ∃ x', Returns (ZStreamDecompressPrivate.decompress inflate · x data) (0, x') ∧
      x'.Idle inflate (P ++ ZStreamPrivate.inputOf data) := by
  have hfeeds := ZStreamPrivate.feed_returns hz.toAdvances
    (fun ret => ret != Z_OK && ret != Z_STREAM_END) (fun _ => d.length) ?_ ?_ (hx.setInput data) rfl
  · obtain ⟨x', hreturns, hx', hin⟩ := hfeeds
    refine ⟨x', ?_, hx', hin⟩
    simp only [ZStreamDecompressPrivate.decompress, hx.valid, Bool.true_eq_false, false_and, if_false]
    exact hreturns
  · intro s P y hfed hin heq hspace
    obtain ⟨hret, hprogress⟩ := hz.feed hc hfed hin (heq ▸ hfront) hspace
    refine ⟨?_, hprogress⟩
    rcases hret with hret | hret <;> simp [hret]
  · intro st P y rest hfed heq
    have hconsumed : P <+: c := (List.prefix_append P rest).trans (heq ▸ hfront)
    exact (hz.sound hc hfed hconsumed).length_le

structure Closing (z : ZFunctions σ) (x : ZStreamPrivate σ) (X : Bytes) : Prop where
  finishing : z.Finishing x.stream.state X x.m_data
  next_in : x.stream.next_in = []
  space : 0 < x.tmp.length

theorem finishedBody_pass {deflate : ZFunctions σ} (hz : deflate.Deflates Format) (hx : Closing deflate x X) :
    (∃ x', ZStreamCompressPrivate.finishedBody deflate x = .inl x' ∧ Closing deflate x' X ∧
        x.m_data.length < x'.m_data.length) ∨
      ∃ x', ZStreamCompressPrivate.finishedBody deflate x = .inr x' ∧ Format x'.m_data X := by
  obtain ⟨hdata, hlength⟩ := ZStreamPrivate.append_run hz.toAdvances x .Z_FINISH
  rcases hz.finish (s := { x.stream with avail_out := x.tmp.length }) hx.finishing hx.next_in hx.space with
    ⟨hend, hformat⟩ | ⟨hok, hfull⟩
  · refine .inr ⟨(x.run deflate .Z_FINISH).1.append, if_neg (not_not.mpr hend), ?_⟩
    rw [hdata]
    exact hformat
  · have hgoes : (x.called deflate .Z_FINISH).ret ≠ Z_STREAM_END := by
      rw [ZStreamPrivate.called, hok]
      decide
    refine .inl ⟨(x.run deflate .Z_FINISH).1.append, if_pos hgoes, ⟨?_, ?_, ?_⟩, ?_⟩
    · rw [hdata]
      exact .run (s := { x.stream with avail_out := x.tmp.length }) hx.finishing hx.next_in hx.space hgoes
    · have hsuffix := hz.next_in { x.stream with avail_out := x.tmp.length } .Z_FINISH
      exact List.suffix_nil.mp (hx.next_in ▸ hsuffix)
    · exact Nat.lt_of_lt_of_eq hx.space hlength.symm
    · have hput := hz.avail_out { x.stream with avail_out := x.tmp.length } .Z_FINISH
      rw [hfull, Nat.add_zero] at hput
      rw [hdata, List.length_append]
      exact Nat.lt_add_of_pos_right (Nat.lt_of_lt_of_eq hx.space hput.symm)

theorem compress_finished_returns {deflate : ZFunctions σ} (hz : deflate.Deflates Format)
    (hx : x.Idle deflate X) : ∃ c x', Returns (ZStreamCompressPrivate.finished deflate · x) (c, x') ∧
      Format c X := by
  obtain ⟨bound, hbound⟩ := hz.bounded
  have hends := loop_returns (ZStreamCompressPrivate.finishedBody deflate) (I := fun x => Closing deflate x X)
    (Q := fun x => Format x.m_data X) Nat.lt_wfRel.wf (fun x => bound X.length - x.m_data.length) ?_
    ⟨.fed hx.fed, hx.next_in, hx.space⟩
  · obtain ⟨x', hreturns, hformat⟩ := hends
    refine ⟨x'.m_data, { x' with stream := (deflate.close x'.stream).1, m_data := [], m_valid := false },
      ?_, hformat⟩
    simp only [ZStreamCompressPrivate.finished, hx.valid, Bool.not_true, Bool.false_eq_true, if_false,
      Option.bind_eq_bind]
    exact hreturns.bind (loop_steady _ _) (steady_const _) (returns_const _)
  · intro x hx
    refine (finishedBody_pass hz hx).imp_left ?_
    rintro ⟨x', hbody, hx', hgrown⟩
    have hmost := hbound hx'.finishing
    exact ⟨x', hbody, hx', Nat.sub_lt_sub_left (Nat.lt_of_lt_of_le hgrown hmost) hgrown⟩

theorem decompress_finished {inflate : ZFunctions τ} (hz : inflate.Inflates Format) (hc : Format c d)
    (hx : x.Idle inflate c) : (ZStreamDecompressPrivate.finished inflate x).1 = d := by
  have hclose : (inflate.close (inflate.run { x.stream with next_in := [] } .Z_FINISH).stream).2 = 0 :=
    hz.close_ok hx.fed
  simp only [ZStreamDecompressPrivate.finished, hx.valid, Bool.not_true, Bool.false_eq_true, if_false, hclose,
    if_true]
  exact hz.complete hc hx.fed

-- ---------------------------------------------------------------------------
-- Sequences of calls
-- ---------------------------------------------------------------------------

theorem compress_steady (z : ZFunctions σ) (x : ZStreamPrivate σ) (data : Bytes) :
    Steady (ZStreamCompressPrivate.compress z · x data) := by
  unfold ZStreamCompressPrivate.compress
  split
  · exact steady_const _
  · exact loop_steady _ _

theorem decompress_steady (z : ZFunctions σ) (x : ZStreamPrivate σ) (data : Bytes) :
    Steady (ZStreamDecompressPrivate.decompress z · x data) := by
  unfold ZStreamDecompressPrivate.decompress
  split
  · exact steady_const _
  · exact loop_steady _ _

theorem compress_finished_steady (z : ZFunctions σ) (x : ZStreamPrivate σ) :
    Steady (ZStreamCompressPrivate.finished z · x) := by
  unfold ZStreamCompressPrivate.finished
  split
  · exact steady_const _
  · exact (loop_steady _ _).bind fun _ => steady_const _

section

variable {call : Nat → ZStreamPrivate σ → Bytes → Option (Int × ZStreamPrivate σ)}

theorem callEach_steady (hsteady : ∀ x data, Steady (call · x data)) (strings : List Bytes) :
    ∀ x, Steady fun fuel => callEach (call fuel) x strings := by
  induction strings with
  | nil => exact fun _ => steady_const _
  | cons data rest ih =>
    intro x
    exact (hsteady x data).bind fun r => (ih r.2).bind fun _ => steady_const _

/-- When each call returns 0 and keeps the invariant, up to the input `T`, so do all. -/
theorem callEach_returns {I : ZStreamPrivate σ → Bytes → Prop} (hsteady : ∀ x data, Steady (call · x data))
    (hcall : ∀ x X data, I x X → X ++ ZStreamPrivate.inputOf data <+: T →
      ∃ x', Returns (call · x data) (0, x') ∧ I x' (X ++ ZStreamPrivate.inputOf data))
    (strings : List Bytes) : ∀ x X, I x X → X ++ (strings.map ZStreamPrivate.inputOf).flatten = T →
      ∃ rets x', Returns (fun fuel => callEach (call fuel) x strings) (rets, x') ∧ (∀ ret ∈ rets, ret = 0) ∧
        I x' T := by
  induction strings with
  | nil =>
    intro x X hx hT
    rw [List.map_nil, List.flatten_nil, List.append_nil] at hT
    exact ⟨[], x, returns_const _, nofun, hT ▸ hx⟩
  | cons data rest ih =>
    intro x X hx hT
    rw [List.map_cons, List.flatten_cons, ← List.append_assoc] at hT
    obtain ⟨x', hcalled, hx'⟩ := hcall x X data hx ⟨_, hT⟩
    obtain ⟨rets, x'', hrest, hrets, hx''⟩ := ih x' _ hx' hT
    refine ⟨0 :: rets, x'', ?_, List.forall_mem_cons.mpr ⟨rfl, hrets⟩, hx''⟩
    exact hcalled.bind (hsteady x data) ((callEach_steady hsteady rest x').bind fun _ => steady_const _)
      (hrest.bind (callEach_steady hsteady rest x') (steady_const _) (returns_const _))

end

theorem compressAll_steady (deflate : ZFunctions σ) (CHUNK_SIZE : UInt32) (data : List Bytes) :
    Steady (compressAll deflate CHUNK_SIZE data) :=
  (callEach_steady (compress_steady deflate) data _).bind fun r =>
    (compress_finished_steady deflate r.2).bind fun _ => steady_const _

theorem decompressAll_steady (inflate : ZFunctions τ) (CHUNK_SIZE : UInt32) (pieces : List Bytes) :
    Steady (decompressAll inflate CHUNK_SIZE pieces) :=
  (callEach_steady (decompress_steady inflate) pieces _).bind fun _ => steady_const _

theorem roundTrip_steady (deflate : ZFunctions σ) (inflate : ZFunctions τ)
    (compressSize decompressSize : UInt32) (data : List Bytes) (cut : Cutting) :
    Steady (roundTrip deflate inflate compressSize decompressSize data cut) :=
  (compressAll_steady deflate compressSize data).bind fun r =>
    (decompressAll_steady inflate decompressSize (cut.pieces r.2)).bind fun _ => steady_const _

-- ---------------------------------------------------------------------------
-- There and back
-- ---------------------------------------------------------------------------

theorem compressAll_returns {deflate : ZFunctions σ} (hz : deflate.Deflates Format) (hsize : 0 < CHUNK_SIZE)
    (data : List Bytes) : ∃ rets c, Returns (compressAll deflate CHUNK_SIZE data) (rets, c) ∧
      (∀ ret ∈ rets, ret = 0) ∧ Format c (data.map ZStreamPrivate.inputOf).flatten := by
  obtain ⟨rets, x, hcalls, hrets, hx⟩ := callEach_returns (I := ZStreamPrivate.Idle deflate)
    (compress_steady deflate) (fun x X string hx _ => compress_returns hz hx string) data _ []
    (ZStreamPrivate.idle_new hz.toAdvances hz.init_ok hsize) rfl
  obtain ⟨c, x', hfinished, hformat⟩ := compress_finished_returns hz hx
  refine ⟨rets, c, ?_, hrets, hformat⟩
  exact hcalls.bind (callEach_steady (compress_steady deflate) data _)
    ((compress_finished_steady deflate x).bind fun _ => steady_const _)
    (hfinished.bind (compress_finished_steady deflate x) (steady_const _) (returns_const _))

theorem decompressAll_returns {inflate : ZFunctions τ} (hz : inflate.Inflates Format) (hsize : 0 < CHUNK_SIZE)
    (hc : Format c d) {pieces : List Bytes} (hpieces : (pieces.map ZStreamPrivate.inputOf).flatten = c) :
    ∃ rets, Returns (decompressAll inflate CHUNK_SIZE pieces) (rets, d) ∧ ∀ ret ∈ rets, ret = 0 := by
  obtain ⟨rets, x, hcalls, hrets, hx⟩ := callEach_returns (I := ZStreamPrivate.Idle inflate)
    (decompress_steady inflate) (fun x P piece hx hfront => decompress_returns hz hc hx piece hfront)
    pieces _ [] (ZStreamPrivate.idle_new hz.toAdvances hz.init_ok hsize) hpieces
  refine ⟨rets, ?_, hrets⟩
  rw [← decompress_finished hz hc hx]
  exact hcalls.bind (callEach_steady (decompress_steady inflate) pieces _) (steady_const _) (returns_const _)

theorem roundTrip_returns {deflate : ZFunctions σ} {inflate : ZFunctions τ} (hd : deflate.Deflates Format)
    (hi : inflate.Inflates Format) (compressSize decompressSize : UInt32) (hcompress : 0 < compressSize)
    (hdecompress : 0 < decompressSize) (data : List Bytes) (cut : Cutting)
    (hcut : ∀ c, ∀ p ∈ cut.pieces c, p.length < 2 ^ 32) :
    ∃ rets, Returns (roundTrip deflate inflate compressSize decompressSize data cut)
        (rets, (data.map ZStreamPrivate.inputOf).flatten) ∧ ∀ ret ∈ rets, ret = 0 := by
  obtain ⟨rets, c, hcompressed, hrets, hformat⟩ := compressAll_returns hd hcompress data
  have hpieces : ((cut.pieces c).map ZStreamPrivate.inputOf).flatten = c := by
    rw [ZStreamPrivate.map_inputOf_short (hcut c), cut.flatten_pieces]
  obtain ⟨rets', hdecompressed, hrets'⟩ := decompressAll_returns hi hdecompress hformat hpieces
  refine ⟨rets ++ rets', ?_, fun ret hret => (List.mem_append.mp hret).elim (hrets ret) (hrets' ret)⟩
  have hsteady := decompressAll_steady inflate decompressSize (cut.pieces c)
  exact hcompressed.bind (compressAll_steady deflate compressSize data) (hsteady.bind fun _ => steady_const _)
    (hdecompressed.bind hsteady (steady_const _) (returns_const _))

/-- The data comes back from every way of cutting its compressed form into short
pieces just when its strings are short. -/
theorem zlib_round_trip_iff {deflate : ZFunctions σ} {inflate : ZFunctions τ} {Format : Bytes → Bytes → Prop}
    (hd : deflate.Deflates Format) (hi : inflate.Inflates Format) (compressSize decompressSize : UInt32)
    (hcompress : 0 < compressSize) (hdecompress : 0 < decompressSize) (data : List Bytes) (cut : Cutting)
    (hcut : ∀ c, ∀ p ∈ cut.pieces c, p.length < 2 ^ 32) :
    RoundTrips deflate inflate compressSize decompressSize data cut ↔
      ∀ string ∈ data, string.length < 2 ^ 32 := by
  rw [← ZStreamPrivate.flatten_inputs_iff]
  obtain ⟨rets, hreturns, hrets⟩ :=
    roundTrip_returns hd hi compressSize decompressSize hcompress hdecompress data cut hcut
  constructor
  · rintro ⟨rets', hreturns', -⟩
    have hsteady := roundTrip_steady deflate inflate compressSize decompressSize data cut
    have hsame := hreturns.unique hsteady hreturns'
    exact (Prod.mk.inj hsame).2
  · intro hflatten
    exact ⟨rets, hflatten ▸ hreturns, hrets⟩

def byteByByte : Cutting := ⟨fun c => c.map ([·]), fun c => List.flatMap_singleton' c⟩

theorem byteByByte_short : ∀ c, ∀ p ∈ byteByByte.pieces c, p.length < 2 ^ 32 := by
  intro c p hp
  obtain ⟨b, -, rfl⟩ := List.mem_map.mp hp
  exact Nat.one_lt_two_pow (by decide)

theorem zlib_round_trip_letter : RoundTrips Stored.deflate Stored.inflate 4 4 [[], [0x61]] byteByByte :=
  (zlib_round_trip_iff Stored.deflate_deflates Stored.inflate_inflates 4 4 (by decide) (by decide)
    [[], [0x61]] byteByByte byteByByte_short).mpr (by decide)

example : compressAll Stored.deflate 4 [[], [0x61]] 9 =
    some ([0, 0], [0x78, 0x9c, 0x4b, 0x04, 0x00, 0x00, 0x62, 0x00, 0x62]) := rfl

theorem zlib_loses_long_string :
    Stored.deflate.Deflates Stored.Format ∧ Stored.inflate.Inflates Stored.Format ∧
      ¬RoundTrips Stored.deflate Stored.inflate 4 4 [List.replicate (2 ^ 32) 0] byteByByte := by
  refine ⟨Stored.deflate_deflates, Stored.inflate_inflates, ?_⟩
  rintro ⟨rets, hreturns, -⟩
  obtain ⟨rets', hreturns', -⟩ := roundTrip_returns Stored.deflate_deflates Stored.inflate_inflates 4 4
    (by decide) (by decide) [List.replicate (2 ^ 32) 0] byteByByte byteByByte_short
  have hsame := hreturns.unique (fun _ _ _ => roundTrip_steady _ _ _ _ _ _ _ _ _) hreturns'
  have hshort := (ZStreamPrivate.flatten_inputs_iff _).mp (Prod.mk.inj hsame).2.symm _ (.head _)
  rw [List.length_replicate] at hshort
  exact Nat.lt_irrefl _ hshort

end Andren.Base
