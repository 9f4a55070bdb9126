import Andren.Base.Zlib
import Andren.Machine.Loop
import Andren.Network.SockStream

/-!
# Reading a whole file

The task of `AFile::aread` reads the file piece by piece until `read` returns 0 or fails with
`EAGAIN`, and passes what it has to `onReadDone`. After any other error it reads again. An
error that persists is therefore read for ever: the task completes if and only if the first
result that is not positive is one of the two (`aread_completes_iff`).
-/

namespace Andren.Network

open Base Machines

/-- What the calls of `::read` return in turn, what they put at the front of the buffer, and
`errno` after each. After finitely many pieces comes the end of the file or an error, and an
error persists. -/
structure FileReads where
  ret : Nat → Int
  data : Nat → Bytes
  eno : Nat → Int
  low : ∀ i, -1 ≤ ret i
  count : ∀ i, (data i).length = (ret i).toNat
  fits : ∀ i, ret i ≤ 64 * 1024
  finite : ∃ i, ret i ≤ 0
  persists : ∀ i, ret i = -1 → ret (i + 1) = -1 ∧ eno (i + 1) = eno i

/-- The locals of the task, after `calls` calls of `readToBuf`. -/
structure AReadTask where
  calls : Nat
  data : Bytes
  tmp : Bytes
  ret : Int
  count : Int

namespace AReadTask

def start : AReadTask := ⟨0, [], List.replicate (64 * 1024) 0, 0, 0⟩

def readToBuf (reads : FileReads) (x : AReadTask) : AReadTask :=
  let data := reads.data x.calls
  { x with calls := x.calls + 1, ret := reads.ret x.calls, tmp := data ++ x.tmp.drop data.length }

/-- A pass of `while(1)`. The two names of the error are joined by a bitwise or. -/
def body (reads : FileReads) (x : AReadTask) : AReadTask ⊕ AReadTask :=
  let errno := reads.eno x.calls
  let x := x.readToBuf reads
  if x.ret = 0 ∨ (x.ret = -1 ∧ errno = (EAGAIN.toNat ||| EWOULDBLOCK.toNat : Nat)) then .inr x
  else if 0 < x.ret then
    .inl { x with count := x.count + x.ret, data := x.data ++ x.tmp.take x.ret.toNat }
  else .inl x

def run (reads : FileReads) (fuel : Nat) : Option (List (Int × Bytes)) :=
  (loop (body reads) fuel start).map fun x => [(if x.count = 0 then x.ret else x.count, x.data)]

end AReadTask

namespace FileReads

structure StopsAt (reads : FileReads) (k : Nat) : Prop where
  stop : reads.ret k ≤ 0
  before : ∀ i < k, 0 < reads.ret i

def delivered (reads : FileReads) (k : Nat) : Bytes := (List.range k).flatMap reads.data

/-- The task ends, and it has called `onReadDone` once, with the bytes that were read. -/
def Completes (reads : FileReads) : Prop :=
  ∃ k ret, reads.StopsAt k ∧ Returns (AReadTask.run reads) [(ret, reads.delivered k)]

def EndsQuietly (reads : FileReads) : Prop :=
  ∃ k, reads.StopsAt k ∧ (reads.ret k = 0 ∨ reads.eno k = EAGAIN)

@[simp] theorem delivered_succ (reads : FileReads) (k : Nat) :
    reads.delivered (k + 1) = reads.delivered k ++ reads.data k := by
  simp [delivered, List.range_succ]

section

variable {reads : FileReads}

theorem exists_stopsAt (reads : FileReads) : ∃ k, reads.StopsAt k :=
  ⟨Nat.find reads.finite, Nat.find_spec reads.finite, fun _ hi => Int.not_le.mp (Nat.find_min reads.finite hi)⟩

theorem StopsAt.error (h : reads.StopsAt k) (hloud : ¬(reads.ret k = 0 ∨ reads.eno k = EAGAIN)) :
    reads.ret k = -1 ∧ reads.eno k ≠ EAGAIN := by
  obtain ⟨hzero, heno⟩ := not_or.mp hloud
  have hlow := reads.low k
  have hle := h.stop
  exact ⟨by omega, heno⟩

theorem error_persists (h : reads.ret k = -1) (hle : k ≤ i) : reads.ret i = -1 ∧ reads.eno i = reads.eno k := by
  induction i, hle using Nat.le_induction with
  | base => exact ⟨h, rfl⟩
  | succ i _ ih =>
    obtain ⟨hret, heno⟩ := reads.persists i ih.1
    exact ⟨hret, heno.trans ih.2⟩

end

end FileReads

-- ---------------------------------------------------------------------------
-- One pass
-- ---------------------------------------------------------------------------

namespace AReadTask

structure Reading (reads : FileReads) (x : AReadTask) : Prop where
  positive : ∀ i < x.calls, 0 < reads.ret i
  data : x.data = reads.delivered x.calls

section

variable {reads : FileReads} {x : AReadTask}

theorem body_leaves (h : reads.ret x.calls = 0 ∨ (reads.ret x.calls = -1 ∧ reads.eno x.calls = EAGAIN)) :
    x.body reads = .inr (x.readToBuf reads) := if_pos h

theorem body_reads (h : 0 < reads.ret x.calls) :
    ∃ x', x.body reads = .inl x' ∧ x'.calls = x.calls + 1 ∧ x'.data = x.data ++ reads.data x.calls := by
  have hquiet : ¬(reads.ret x.calls = 0 ∨ (reads.ret x.calls = -1 ∧ reads.eno x.calls = EAGAIN)) := by omega
  refine ⟨_, (if_neg hquiet).trans (if_pos h), rfl, ?_⟩
  exact congrArg (x.data ++ ·) (by simp [readToBuf, ← reads.count])

theorem body_spins (hret : reads.ret x.calls = -1) (heno : reads.eno x.calls ≠ EAGAIN) :
    x.body reads = .inl (x.readToBuf reads) := by
  have hquiet : ¬(reads.ret x.calls = 0 ∨ (reads.ret x.calls = -1 ∧ reads.eno x.calls = EAGAIN)) := by omega
  have hpiece : ¬0 < reads.ret x.calls := by omega
  exact (if_neg hquiet).trans (if_neg hpiece)

theorem reading_start : start.Reading reads := ⟨nofun, rfl⟩

theorem Reading.pass (hx : x.Reading reads) (h : 0 < reads.ret x.calls) :
    ∃ x', x.body reads = .inl x' ∧ x'.Reading reads ∧ x'.calls = x.calls + 1 := by
  obtain ⟨x', hbody, hcalls, hdata⟩ := body_reads h
  refine ⟨x', hbody, ⟨fun i hi => ?_, ?_⟩, hcalls⟩
  · rw [hcalls] at hi
    rcases Nat.lt_succ_iff_lt_or_eq.mp hi with hi | rfl
    · exact hx.positive i hi
    · exact h
  · rw [hdata, hcalls, FileReads.delivered_succ, hx.data]

end

end AReadTask

-- ---------------------------------------------------------------------------
-- The loop
-- ---------------------------------------------------------------------------

namespace FileReads

open AReadTask

variable {reads : FileReads}

theorem completes_of_quiet (hstop : reads.StopsAt k) (hquiet : reads.ret k = 0 ∨ reads.eno k = EAGAIN) :
    reads.Completes := by
  have hleaves : reads.ret k = 0 ∨ (reads.ret k = -1 ∧ reads.eno k = EAGAIN) := by
    have hlow := reads.low k
    have hle := hstop.stop
    omega
  have hpass : ∀ x : AReadTask, x.Reading reads ∧ x.calls ≤ k →
      (∃ x', x.body reads = .inl x' ∧ (x'.Reading reads ∧ x'.calls ≤ k) ∧ k - x'.calls < k - x.calls) ∨
      ∃ x', x.body reads = .inr x' ∧ x'.data = reads.delivered k := by
    rintro x ⟨hx, hle⟩
    rcases Nat.lt_or_eq_of_le hle with hlt | rfl
    · obtain ⟨x', hbody, hx', hcalls⟩ := hx.pass (hstop.before _ hlt)
      exact .inl ⟨x', hbody, ⟨hx', by omega⟩, by omega⟩
    · exact .inr ⟨_, body_leaves hleaves, hx.data⟩
  obtain ⟨x, ⟨fuel, hreturns⟩, hdata⟩ := loop_returns (body reads) Nat.lt_wfRel.wf
    (fun x => k - x.calls) hpass ⟨reading_start, Nat.zero_le k⟩
  refine ⟨k, if x.count = 0 then x.ret else x.count, hstop, fuel, ?_⟩
  exact hdata ▸ Option.map_eq_some_iff.mpr ⟨x, hreturns, rfl⟩

/-- Any other error is read again for ever. -/
theorem aread_diverges (hstop : reads.StopsAt k) (hret : reads.ret k = -1) (heno : reads.eno k ≠ EAGAIN)
    (calls : List (Int × Bytes)) : ¬Returns (AReadTask.run reads) calls := by
  rintro ⟨fuel, hrun⟩
  obtain ⟨x, hloop, -⟩ := Option.map_eq_some_iff.mp hrun
  refine loop_diverges (body reads) (I := fun _ => True) (fun x _ => ?_) trivial x ⟨fuel, hloop⟩
  rcases Nat.lt_or_ge x.calls k with hlt | hge
  · obtain ⟨x', hbody, -⟩ := body_reads (hstop.before _ hlt)
    exact ⟨x', hbody, trivial⟩
  · obtain ⟨hret', heno'⟩ := error_persists hret hge
    exact ⟨_, body_spins hret' (heno'.symm ▸ heno), trivial⟩

/-- The read completes if and only if it comes to the end of the file or to `EAGAIN`. -/
theorem aread_completes_iff (reads : FileReads) : reads.Completes ↔ reads.EndsQuietly := by
  constructor
  · rintro ⟨k, ret, hstop, hreturns⟩
    refine ⟨k, hstop, ?_⟩
    by_contra hloud
    obtain ⟨hret, heno⟩ := hstop.error hloud
    exact aread_diverges hstop hret heno _ hreturns
  · rintro ⟨k, hstop, hquiet⟩
    exact completes_of_quiet hstop hquiet

/-- A read that does not complete never calls `onReadDone`, and the IO thread does not come back. -/
theorem aread_captures (h : ¬reads.EndsQuietly) (calls : List (Int × Bytes)) :
    ¬Returns (AReadTask.run reads) calls := by
  obtain ⟨k, hstop⟩ := exists_stopsAt reads
  obtain ⟨hret, heno⟩ := hstop.error fun hquiet => h ⟨k, hstop, hquiet⟩
  exact aread_diverges hstop hret heno calls

end FileReads

def directoryReads : FileReads where
  ret _ := -1
  data _ := []
  eno _ := 21
  low _ := by decide
  count _ := List.length_nil
  fits _ := by decide
  finite := ⟨0, by decide⟩
  persists _ h := ⟨h, rfl⟩

theorem directory_captures_thread :
    ¬directoryReads.Completes ∧ ∀ calls, ¬Returns (AReadTask.run directoryReads) calls := by
  have hdiverges : ∀ calls, ¬Returns (AReadTask.run directoryReads) calls :=
    FileReads.aread_diverges (k := 0) ⟨by decide, nofun⟩ rfl (by decide)
  refine ⟨?_, hdiverges⟩
  rintro ⟨k, ret, -, hreturns⟩
  exact hdiverges _ hreturns

end Andren.Network
