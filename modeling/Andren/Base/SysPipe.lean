import Andren.Base.Zlib
import Andren.Machine.Pieces
import Mathlib.Algebra.Ring.Int.Defs

/-!
# Writing to a pipe

`SysPipe::write` passes the data on in pieces of `PIPE_BUF` bytes. It adds up what `::write`
returns, -1 for a failure included, and goes on after a failure or a short write. The sum
reports what is in the pipe if and only if nothing is written after the first piece that was
not written whole (`write_reports_iff`).
-/

namespace Andren.Base

open Machines

def PIPE_BUF : Nat := 4096

abbrev PlacedByte := UInt8 × Nat

abbrev WriteCall := List PlacedByte × Int

/-- What the calls of `::write` return, by their number and the bytes that are asked for. -/
structure SysWrite where
  ret : Nat → Nat → Int
  low : ∀ i n, -1 ≤ ret i n
  high : ∀ i n, ret i n ≤ n

-- ---------------------------------------------------------------------------
-- The code
-- ---------------------------------------------------------------------------

/-- `count` whole pieces, and the rest if there is one. -/
def pieces (data : List α) : List (List α) :=
  let count := data.length / PIPE_BUF
  let freecount := data.length % PIPE_BUF
  (List.range count).map (fun i => (data.drop (i * PIPE_BUF)).take PIPE_BUF) ++
    if 0 < freecount then [(data.drop (count * PIPE_BUF)).take freecount] else []

def writePiece (w : SysWrite) (s : Int × List WriteCall) (piece : List PlacedByte) : Int × List WriteCall :=
  let n := w.ret s.2.length piece.length
  (s.1 + n, s.2 ++ [(piece, n)])

namespace SysPipe

def write (w : SysWrite) (fd : Int) (data : Bytes) : Int × List WriteCall :=
  if 0 ≤ fd ∧ 0 < data.length then (pieces data.zipIdx).foldl (writePiece w) (0, []) else (-1, [])

end SysPipe

def inPipe (calls : List WriteCall) : List PlacedByte := written (calls.map fun c => (c.1, c.2.toNat))

/-- A result that is no error is the number of bytes in the pipe, which are the first of the
data, and only an incomplete call makes it less than all. -/
def ReportsWritten (data : Bytes) (out : Int × List WriteCall) : Prop :=
  0 ≤ out.1 → inPipe out.2 = data.zipIdx.take out.1.toNat ∧ (out.1 < data.length → ∃ c ∈ out.2, c.2 < c.1.length)

-- ---------------------------------------------------------------------------
-- The calls
-- ---------------------------------------------------------------------------

def callsFrom (w : SysWrite) (i : Nat) : List (List PlacedByte) → List WriteCall
  | [] => []
  | piece :: ps => (piece, w.ret i piece.length) :: callsFrom w (i + 1) ps

def calls (w : SysWrite) (data : Bytes) : List WriteCall := callsFrom w 0 (pieces data.zipIdx)

def failures (cs : List WriteCall) : Nat := cs.countP (·.2 = -1)

section

variable {w : SysWrite}

theorem foldl_writePiece (w : SysWrite) (ps : List (List PlacedByte)) (s : Int × List WriteCall) :
    ps.foldl (writePiece w) s =
      (s.1 + ((callsFrom w s.2.length ps).map Prod.snd).sum, s.2 ++ callsFrom w s.2.length ps) := by
  induction ps generalizing s with
  | nil => simp [callsFrom]
  | cons piece ps ih => simp [ih, writePiece, callsFrom, Int.add_assoc]

theorem write_eq (h : 0 ≤ fd ∧ data ≠ []) :
    SysPipe.write w fd data = (((calls w data).map Prod.snd).sum, calls w data) := by
  rw [SysPipe.write, if_pos ⟨h.1, List.length_pos_iff.mpr h.2⟩, foldl_writePiece]
  simp [calls]

theorem bounds_of_mem_callsFrom (h : c ∈ callsFrom w i ps) : -1 ≤ c.2 ∧ c.2 ≤ c.1.length := by
  induction ps generalizing i with
  | nil => cases h
  | cons piece ps ih =>
    rcases List.mem_cons.mp h with rfl | h
    · exact ⟨w.low _ _, w.high _ _⟩
    · exact ih h

theorem map_fst_callsFrom (w : SysWrite) (i : Nat) (ps : List (List PlacedByte)) :
    (callsFrom w i ps).map Prod.fst = ps := by
  induction ps generalizing i with
  | nil => rfl
  | cons piece ps ih => simp [callsFrom, ih]

theorem sum_add_failures (h : ∀ c ∈ cs, -1 ≤ c.2) :
    (cs.map Prod.snd).sum + failures cs = ((cs.map fun c => c.2.toNat).sum : Nat) := by
  induction cs with
  | nil => rfl
  | cons c cs ih =>
    have hc := h c (.head _)
    have hcs := ih fun d hd => h d (.tail _ hd)
    by_cases hfail : c.2 = -1
    · simp [failures, hfail] at hcs ⊢
      omega
    · simp [failures, hfail] at hcs ⊢
      omega

-- ---------------------------------------------------------------------------
-- The pieces
-- ---------------------------------------------------------------------------

theorem flatten_range (data : List α) (count : Nat) :
    ((List.range count).map fun i => (data.drop (i * PIPE_BUF)).take PIPE_BUF).flatten =
      data.take (count * PIPE_BUF) := by
  induction count with
  | zero => simp
  | succ count ih => simp [List.range_succ, ih, Nat.succ_mul, List.take_add]

theorem flatten_pieces (data : List α) : (pieces data).flatten = data := by
  have hrest : data.drop (data.length / PIPE_BUF * PIPE_BUF) =
      (data.drop (data.length / PIPE_BUF * PIPE_BUF)).take (data.length % PIPE_BUF) := by
    refine (List.take_of_length_le ?_).symm
    rw [List.length_drop, Nat.mod_eq_sub_div_mul]
  rw [pieces, List.flatten_append, flatten_range]
  split
  · rw [List.flatten_singleton, ← hrest, List.take_append_drop]
  next hzero =>
    rw [Nat.eq_zero_of_not_pos hzero, List.take_zero, List.drop_eq_nil_iff] at hrest
    rw [List.flatten_nil, List.append_nil, List.take_of_length_le hrest]

-- ---------------------------------------------------------------------------
-- What is in the pipe
-- ---------------------------------------------------------------------------

structure Contiguous (cs : List WriteCall) : Prop where
  succeed : ∀ c ∈ cs, 0 ≤ c.2
  ends : cs.Pairwise fun a b => a.2 < a.1.length → b.2 = 0

theorem failures_eq_zero_iff (h : ∀ c ∈ cs, -1 ≤ c.2) : failures cs = 0 ↔ ∀ c ∈ cs, 0 ≤ c.2 := by
  rw [failures, List.countP_eq_zero]
  refine forall₂_congr fun c hc => ?_
  have hlow := h c hc
  rw [decide_eq_true_eq]
  omega

theorem whole_calls (w : SysWrite) (data : Bytes) :
    whole ((calls w data).map fun c => (c.1, c.2.toNat)) = data.zipIdx := by
  rw [whole, List.flatMap_map, List.flatMap_def, calls]
  exact (congrArg List.flatten (map_fst_callsFrom w 0 _)).trans (flatten_pieces _)

theorem low_calls (w : SysWrite) (data : Bytes) : ∀ c ∈ calls w data, -1 ≤ c.2 :=
  fun _ hc => (bounds_of_mem_callsFrom hc).1

theorem fits_calls (w : SysWrite) (data : Bytes) :
    ∀ x ∈ (calls w data).map fun c => (c.1, c.2.toNat), x.2 ≤ x.1.length := by
  simp only [List.forall_mem_map]
  intro c hc
  exact Int.toNat_le.mpr (bounds_of_mem_callsFrom hc).2

theorem inPipe_prefix_iff (h : ∀ c ∈ calls w data, 0 ≤ c.2) :
    inPipe (calls w data) <+: data.zipIdx ↔ Contiguous (calls w data) := by
  have hnodup : data.zipIdx.Nodup := .of_map Prod.snd (by simpa using List.nodup_range')
  rw [inPipe, ← whole_calls w data, written_prefix_iff (whole_calls w data ▸ hnodup) (fits_calls w data),
    List.pairwise_map]
  have hends : ∀ {a b}, a ∈ calls w data → b ∈ calls w data →
      (a.2.toNat < a.1.length → b.2.toNat = 0 ↔ a.2 < a.1.length → b.2 = 0) := by
    intro a b ha hb
    have hzero : b.2 ≤ 0 ↔ b.2 = 0 := ⟨fun hle => Int.le_antisymm hle (h b hb), Int.le_of_eq⟩
    rw [Int.toNat_lt (h a ha), Int.toNat_eq_zero, hzero]
  rw [List.Pairwise.iff_of_mem hends]
  exact ⟨fun hpairs => ⟨h, hpairs⟩, Contiguous.ends⟩

theorem length_inPipe (w : SysWrite) (data : Bytes) :
    ((inPipe (calls w data)).length : Int) = ((calls w data).map Prod.snd).sum + failures (calls w data) := by
  rw [inPipe, length_written (fits_calls w data), List.map_map, sum_add_failures (low_calls w data)]
  rfl

theorem exists_short (hless : (inPipe (calls w data)).length < data.length) :
    ∃ c ∈ calls w data, c.2 < c.1.length := by
  by_contra hnone
  have hfull : ∀ c ∈ calls w data, (c.1.length : Int) ≤ c.2 := fun c hc =>
    Int.not_lt.mp fun hlt => hnone ⟨c, hc, hlt⟩
  have hall : inPipe (calls w data) = data.zipIdx := by
    rw [inPipe, written_of_full, whole_calls]
    simp only [List.forall_mem_map]
    intro c hc
    exact Int.ofNat_le.mp (Int.le_trans (hfull c hc) (Int.self_le_toNat _))
  rw [hall, List.length_zipIdx] at hless
  exact Nat.lt_irrefl _ hless

end

/-- `write` reports what is in the pipe if and only if it is not called with data, more calls
fail than bytes are written, or all is written up to some place and nothing after it. -/
theorem write_reports_iff (w : SysWrite) (fd : Int) (data : Bytes) :
    ReportsWritten data (SysPipe.write w fd data) ↔ fd < 0 ∨ data = [] ∨
      (inPipe (calls w data)).length < failures (calls w data) ∨ Contiguous (calls w data) := by
  by_cases hcall : 0 ≤ fd ∧ data ≠ []
  · have hlen := length_inPipe w data
    have hzero := failures_eq_zero_iff (low_calls w data)
    rw [write_eq hcall, or_iff_right (Int.not_lt.mpr hcall.1), or_iff_right hcall.2]
    constructor
    · intro h
      rw [or_iff_not_imp_left, Nat.not_lt]
      intro hmany
      have hpipe : inPipe (calls w data) = data.zipIdx.take ((calls w data).map Prod.snd).sum.toNat :=
        (h (by omega)).1
      have hpipeLen := congrArg List.length hpipe
      rw [List.length_take] at hpipeLen
      have hnone : failures (calls w data) = 0 := by omega
      exact (inPipe_prefix_iff (hzero.mp hnone)).mp (hpipe ▸ List.take_prefix _ _)
    · rintro (hmany | hcontiguous) hpos
      · omega
      · have hnone := hzero.mpr hcontiguous.succeed
        have hsum : ((calls w data).map Prod.snd).sum = (inPipe (calls w data)).length := by omega
        rw [hsum, Int.toNat_natCast]
        have hprefix := (inPipe_prefix_iff hcontiguous.succeed).mpr hcontiguous
        exact ⟨List.prefix_iff_eq_take.mp hprefix, fun hless => exists_short (Int.ofNat_lt.mp hless)⟩
  · have hreturn : SysPipe.write w fd data = (-1, []) :=
      if_neg fun h => hcall ⟨h.1, List.length_pos_iff.mp h.2⟩
    rw [hreturn]
    refine iff_of_true (fun h => absurd h (by decide)) ?_
    rcases not_and_or.mp hcall with hfd | hdata
    · exact .inl (Int.not_le.mp hfd)
    · exact .inr (.inl (not_not.mp hdata))

def firstFails : SysWrite where
  ret i n := if i = 0 then -1 else n
  low i n := by split <;> omega
  high i n := by split <;> omega

theorem calls_firstFails (h : data.length = 4098) : calls firstFails data =
    [(data.zipIdx.take 4096, -1), ((data.zipIdx.drop 4096).take 2, 2)] := by
  simp [calls, pieces, callsFrom, PIPE_BUF, firstFails, h]

theorem write_firstFails (h : data.length = 4098) :
    SysPipe.write firstFails 3 data = (1, calls firstFails data) := by
  rw [write_eq ⟨by decide, List.ne_nil_of_length_eq_add_one h⟩, calls_firstFails h]
  rfl

theorem length_inPipe_firstFails (h : data.length = 4098) : (inPipe (calls firstFails data)).length = 2 := by
  simp [calls_firstFails h, inPipe, h]

/-- The first piece is not written, the second one is: 1 is returned for the bytes 4096 and 4097. -/
theorem write_leaves_hole : ∃ (w : SysWrite) (data : Bytes), data.length = 4098 ∧
    (calls w data).map Prod.snd = [-1, 2] ∧ (SysPipe.write w 3 data).1 = 1 ∧
    ¬ReportsWritten data (SysPipe.write w 3 data) := by
  obtain ⟨data, hdata⟩ : ∃ data : Bytes, data.length = 4098 := ⟨List.replicate 4098 0, List.length_replicate⟩
  refine ⟨firstFails, data, hdata, by rw [calls_firstFails hdata]; rfl, by rw [write_firstFails hdata], fun h => ?_⟩
  rw [write_firstFails hdata] at h
  have hpipe := congrArg List.length (h Int.one_nonneg).1
  rw [length_inPipe_firstFails hdata] at hpipe
  simp [hdata] at hpipe

end Andren.Base
