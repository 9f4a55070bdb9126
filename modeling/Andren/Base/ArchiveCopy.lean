import Andren.Base.Zlib
import Andren.Machine.Loop

/-!
# Copying an entry out of an archive

`archive_read_data` gives a count, zero at the end and a negative code on an error. The
copy loop stores it in a `size_t` and goes on while that is positive, so an error is a
count above every buffer: the loop writes that many bytes from the buffer, and reads
again. It copies the entry just when the first result that is not positive is zero
(`copies_entry_iff`).
-/

namespace Andren.Base

open Machines

/-- The results of `archive_read_data` with a buffer of `n` bytes, in the order of the
calls: the value returned, and what was put at the front of the buffer. -/
structure DataReads (n : Nat) where
  ret : Nat → Int64
  data : Nat → Bytes
  count : ∀ i, (data i).length = (ret i).toInt.toNat
  fits : ∀ i, (ret i).toInt ≤ n
  persists : ∀ i, ret i < 0 → ret (i + 1) < 0

structure FileWrite where
  bytesRead : UInt64
  bytes : Bytes

structure CopyLoop (n : Nat) where
  calls : Nat
  buffer : { b : Bytes // b.length = n }
  writes : List FileWrite

section

variable {n : Nat}

theorem DataReads.length_data_le (reads : DataReads n) (i : Nat) : (reads.data i).length ≤ n := by
  rw [reads.count]
  exact Int.toNat_le.mpr (reads.fits i)

theorem DataReads.errors_persist (reads : DataReads n) (h : reads.ret k < 0) (hle : k ≤ i) : reads.ret i < 0 := by
  induction i, hle using Nat.le_induction with
  | base => exact h
  | succ i _ ih => exact reads.persists i ih

def DataReads.fill (reads : DataReads n) (i : Nat) (buffer : { b : Bytes // b.length = n }) :
    { b : Bytes // b.length = n } :=
  ⟨reads.data i ++ buffer.1.drop (reads.data i).length, by
    rw [List.length_append, List.length_drop, buffer.2]
    exact Nat.add_sub_of_le (reads.length_data_le i)⟩

/-- One pass of `while ((bytesRead = archive_read_data(...)) > 0)`. The result is
converted to `size_t` before the comparison. -/
def CopyLoop.body (reads : DataReads n) (x : CopyLoop n) : CopyLoop n ⊕ CopyLoop n :=
  let bytesRead := (reads.ret x.calls).toUInt64
  let buffer := reads.fill x.calls x.buffer
  if 0 < bytesRead then
    .inl ⟨x.calls + 1, buffer, x.writes ++ [⟨bytesRead, buffer.1.take bytesRead.toNat⟩]⟩
  else .inr ⟨x.calls + 1, buffer, x.writes⟩

def CopyLoop.start (buffer : { b : Bytes // b.length = n }) : CopyLoop n := ⟨0, buffer, []⟩

def CopyLoop.file (x : CopyLoop n) : Bytes := x.writes.flatMap (·.bytes)

def DataReads.StopsAt (reads : DataReads n) (k : Nat) : Prop := reads.ret k ≤ 0 ∧ ∀ i < k, 0 < reads.ret i

def DataReads.Ends (reads : DataReads n) : Prop := ∃ k, reads.StopsAt k ∧ reads.ret k = 0

def DataReads.delivered (reads : DataReads n) (k : Nat) : Bytes := (List.range k).flatMap reads.data

/-- The copy loop is left; each write is of a size from one to the size of the buffer; and
the file holds the bytes delivered before the first result that is not positive. -/
def CopiesEntry (reads : DataReads n) (buffer : { b : Bytes // b.length = n }) : Prop :=
  ∃ x, Returns (loop (CopyLoop.body reads) · (.start buffer)) x ∧
    (∀ w ∈ x.writes, 1 ≤ w.bytesRead.toNat ∧ w.bytesRead.toNat ≤ n) ∧
    ∃ k, reads.StopsAt k ∧ x.file = reads.delivered k

-- ---------------------------------------------------------------------------
-- One pass
-- ---------------------------------------------------------------------------

theorem size_pos_iff (ret : Int64) : 0 < ret.toUInt64 ↔ ret ≠ 0 := by
  rw [UInt64.pos_iff_ne_zero]
  refine not_congr ⟨fun h => ?_, fun h => h ▸ rfl⟩
  rw [← Int64.toInt64_toUInt64 ret, h]
  rfl

theorem toNat_size (h : 0 < ret) : (Int64.toUInt64 ret).toNat = ret.toInt.toNat := by
  rw [Int64.toNat_toUInt64_of_le (Int64.le_of_lt h)]
  rfl

@[simp] theorem delivered_succ (reads : DataReads n) (k : Nat) :
    reads.delivered (k + 1) = reads.delivered k ++ reads.data k := by
  simp [DataReads.delivered, List.range_succ]

variable {reads : DataReads n} {x : CopyLoop n}

theorem body_ends (h : reads.ret x.calls = 0) :
    x.body reads = .inr ⟨x.calls + 1, reads.fill x.calls x.buffer, x.writes⟩ :=
  if_neg fun hpos => (size_pos_iff _).mp hpos h

theorem body_goes (h : reads.ret x.calls ≠ 0) : x.body reads = .inl ⟨x.calls + 1, reads.fill x.calls x.buffer,
    x.writes ++ [⟨(reads.ret x.calls).toUInt64,
      (reads.fill x.calls x.buffer).1.take (reads.ret x.calls).toUInt64.toNat⟩]⟩ :=
  if_pos ((size_pos_iff _).mpr h)

theorem take_fill (h : 0 < reads.ret i) (buffer : { b : Bytes // b.length = n }) :
    (reads.fill i buffer).1.take (reads.ret i).toUInt64.toNat = reads.data i := by
  rw [toNat_size h, ← reads.count]
  exact List.take_left

-- ---------------------------------------------------------------------------
-- The loop
-- ---------------------------------------------------------------------------

structure CopyLoop.Copying (reads : DataReads n) (x : CopyLoop n) : Prop where
  positive : ∀ i < x.calls, 0 < reads.ret i
  sizes : ∀ w ∈ x.writes, 1 ≤ w.bytesRead.toNat ∧ w.bytesRead.toNat ≤ n
  file : x.file = reads.delivered x.calls

theorem copying_start (buffer : { b : Bytes // b.length = n }) : (CopyLoop.start buffer).Copying reads :=
  ⟨nofun, nofun, rfl⟩

theorem Copying.pass (hx : x.Copying reads) (hpos : 0 < reads.ret x.calls) :
    ∃ x', x.body reads = .inl x' ∧ x'.Copying reads ∧ x'.calls = x.calls + 1 := by
  have hsize : 0 < (reads.ret x.calls).toInt := by simpa [Int64.lt_iff_toInt_lt] using hpos
  refine ⟨_, body_goes (Int64.ne_of_lt hpos).symm, ⟨?_, ?_, ?_⟩, rfl⟩
  · intro i hi
    rcases Nat.lt_succ_iff_lt_or_eq.mp hi with hi | rfl
    · exact hx.positive i hi
    · exact hpos
  · intro w hw
    rcases List.mem_append.mp hw with hw | hw
    · exact hx.sizes w hw
    · obtain rfl := List.mem_singleton.mp hw
      have hfits := reads.fits x.calls
      rw [toNat_size hpos]
      omega
  · rw [CopyLoop.file, List.flatMap_append, delivered_succ, ← hx.file]
    simp [CopyLoop.file, take_fill hpos]

theorem copies_of_ends (hstop : reads.StopsAt k) (hend : reads.ret k = 0)
    (buffer : { b : Bytes // b.length = n }) : CopiesEntry reads buffer := by
  have hpass : ∀ x : CopyLoop n, x.Copying reads ∧ x.calls ≤ k →
      (∃ x', x.body reads = .inl x' ∧ (x'.Copying reads ∧ x'.calls ≤ k) ∧ k - x'.calls < k - x.calls) ∨
      ∃ x', x.body reads = .inr x' ∧ (∀ w ∈ x'.writes, 1 ≤ w.bytesRead.toNat ∧ w.bytesRead.toNat ≤ n) ∧
        x'.file = reads.delivered k := by
    rintro x ⟨hx, hle⟩
    rcases Nat.lt_or_eq_of_le hle with hlt | rfl
    · obtain ⟨x', hbody, hx', hcalls⟩ := Copying.pass hx (hstop.2 _ hlt)
      exact .inl ⟨x', hbody, ⟨hx', by omega⟩, by omega⟩
    · exact .inr ⟨_, body_ends hend, hx.sizes, hx.file⟩
  obtain ⟨x, hreturns, hsizes, hfile⟩ := loop_returns (CopyLoop.body reads) Nat.lt_wfRel.wf
    (fun x => k - x.calls) hpass ⟨copying_start buffer, Nat.zero_le k⟩
  exact ⟨x, hreturns, hsizes, k, hstop, hfile⟩

/-- When an error is the first result that is not positive, the loop is not left: before
it the results are positive, after it they are errors. -/
theorem copy_diverges (hstop : reads.StopsAt k) (herror : reads.ret k < 0)
    (buffer : { b : Bytes // b.length = n }) (x : CopyLoop n) :
    ¬Returns (loop (CopyLoop.body reads) · (.start buffer)) x := by
  have hnonzero : ∀ i, reads.ret i ≠ 0 := by
    intro i
    rcases Nat.lt_or_ge i k with hlt | hge
    · exact (Int64.ne_of_lt (hstop.2 i hlt)).symm
    · exact Int64.ne_of_lt (reads.errors_persist herror hge)
  exact loop_diverges (CopyLoop.body reads) (I := fun _ => True)
    (fun x _ => ⟨_, body_goes (hnonzero x.calls), trivial⟩) trivial x

theorem copies_entry_iff (reads : DataReads n) (buffer : { b : Bytes // b.length = n }) :
    CopiesEntry reads buffer ↔ reads.Ends := by
  constructor
  · rintro ⟨x, hreturns, -, k, hstop, -⟩
    refine ⟨k, hstop, ?_⟩
    rcases Int64.lt_or_eq_of_le hstop.1 with herror | hend
    · exact absurd hreturns (copy_diverges hstop herror buffer x)
    · exact hend
  · rintro ⟨k, hstop, hend⟩
    exact copies_of_ends hstop hend buffer

end

def damaged : DataReads 4 where
  ret _ := -30
  data _ := []
  count _ := rfl
  fits _ := by decide
  persists _ h := h

/-- `file.write` is passed a size of 2 ^ 64 - 30, and the loop is not left. -/
theorem damaged_not_copied :
    (((CopyLoop.start ⟨[0, 0, 0, 0], rfl⟩).body damaged).getLeft?.map fun x => x.writes.map (·.bytesRead)) =
        some [18446744073709551586] ∧
      ¬CopiesEntry damaged ⟨[0, 0, 0, 0], rfl⟩ := by
  refine ⟨by decide, ?_⟩
  rintro ⟨x, hreturns, -⟩
  exact copy_diverges (k := 0) ⟨by decide, nofun⟩ (by decide) _ x hreturns

end Andren.Base
