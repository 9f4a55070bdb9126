import Andren.Base.ArchiveDecompress
import Andren.Network.AFile
import Andren.Network.Strand

/-!
# Files on the IO worker

The operations of an `AFile` are tasks of the IO worker. A file keeps one offset for reading and
writing: `aread` gets what stands behind the last `asend`, and opening the file again, what was
sent. `afile_session` tells what is read in any interleaving of the callers.
-/

namespace Andren.Network

open Machines Base

/-- What stands behind a descriptor. -/
structure Description where
  path : Bytes
  flags : Nat
  offset : Nat

structure AFile where
  disk : Bytes → Option Bytes
  /-- An open file has a descriptor and what stands behind it. -/
  m_file : Option (Nat × Description)

inductive AFileTask
  | aclose
  | areopen (path : Bytes) (flags : Nat) (createMode : Int)
  | asend (data : Bytes)
  | aread

inductive AFileEv
  | onControl (isOpen : Bool)
  | onWriteDone (ret : Int) (data : Bytes)
  | onReadDone (ret : Int) (data : Bytes)
  deriving DecidableEq

namespace AFile

def O_ACCMODE : Nat := 3

def O_RDONLY : Nat := 0

def O_WRONLY : Nat := 1

def O_CREAT : Nat := 0o100

def O_TRUNC : Nat := 0o1000

def O_APPEND : Nat := 0o2000

def put (c : Bytes) (pos : Nat) (data : Bytes) : Bytes :=
  c.take pos ++ List.replicate (pos - c.length) 0 ++ data ++ c.drop (pos + data.length)

def opened (c? : Option Bytes) (flags : Nat) : Bytes :=
  if flags &&& O_TRUNC = 0 then c?.getD [] else []

def Description.write (d : Description) (c data : Bytes) : Description × Bytes :=
  let pos := if d.flags &&& O_APPEND = 0 then d.offset else c.length
  ({ d with offset := pos + data.length }, put c pos data)

def close (x : AFile) : AFile := { x with m_file := none }

def open_ (x : AFile) (path : Bytes) (flags : Nat) : Option Nat → Option (AFile × Bool)
  | none => some (x, false)
  | some fd =>
    let name := c_str path
    if (x.disk name).isNone ∧ flags &&& O_CREAT = 0 then none
    else
      let c := opened (x.disk name) flags
      some (⟨Function.update x.disk name (some c), some (fd, ⟨name, flags, 0⟩)⟩, true)

/-- A task of the IO worker, which gets `answer` from the system: the descriptor when it opens a
file, and how much `write` takes. -/
def runTask (ndebug : Bool) (x : AFile) : AFileTask → Option Nat → Option (AFile × List AFileEv)
  | .aclose, _ => some (x.close, [.onControl false])
  | .areopen path flags _, answer => do
    let x := match x.m_file with
      | some (fd, _) => if 0 < fd then x.close else x
      | none => x
    let (x, isOpen) ← x.open_ path flags answer
    pure (x, [.onControl isOpen])
  | .asend data, answer => match x.m_file with
    -- `switchNonblock` asserts that the descriptor is open.
    | none => if ndebug then some (x, [.onWriteDone (-1) data]) else none
    | some (fd, d) => match answer with
      | none => some (x, [.onWriteDone (-1) data])
      | some taken =>
        if d.flags &&& O_ACCMODE = O_RDONLY then some (x, [.onWriteDone (-1) data])
        else
          let taken := data.take taken
          let (d, c) := Description.write d ((x.disk d.path).getD []) taken
          some (⟨Function.update x.disk d.path (some c), some (fd, d)⟩, [.onWriteDone taken.length data])
  | .aread, _ => match x.m_file with
    -- Without a descriptor the read fails with an error that is not `EAGAIN`.
    | none => none
    | some (fd, d) =>
      if d.flags &&& O_ACCMODE = O_WRONLY then none
      else
        let c := (x.disk d.path).getD []
        let data := c.drop d.offset
        some ({ x with m_file := some (fd, { d with offset := d.offset + data.length }) },
          [.onReadDone data.length data])

def object (ndebug : Bool) (disk : Bytes → Option Bytes) : Machine AFile (AFileTask × Option Nat) AFileEv where
  init := ⟨disk, none⟩
  step x | (r, answer) => x.runTask ndebug r answer

end AFile

/-- What the calls test of their arguments. -/
def AFileTask.goes : AFileTask → Bool
  | .areopen path _ _ => !path.isEmpty
  | .asend data => !data.isEmpty
  | .aclose | .aread => true

namespace FileReads

def regular (rest : Bytes) : FileReads where
  ret i := ((rest.drop (i * (64 * 1024))).take (64 * 1024)).length
  data i := (rest.drop (i * (64 * 1024))).take (64 * 1024)
  eno _ := 0
  low i := by omega
  count i := (Int.toNat_natCast _).symm
  fits i := by
    have hle := List.length_take_le (64 * 1024) (rest.drop (i * (64 * 1024)))
    omega
  finite := by
    refine ⟨rest.length, ?_⟩
    rw [List.drop_eq_nil_of_le (by omega)]
    exact Int.le_refl 0
  persists i h := by omega

theorem regular_delivered (rest : Bytes) (k : Nat) : (regular rest).delivered k = rest.take (k * (64 * 1024)) := by
  induction k with
  | zero => simp [delivered]
  | succ k ih =>
    rw [delivered_succ, ih, Nat.add_mul, Nat.one_mul, List.take_add]
    rfl

theorem body_counts {x x' : AReadTask} {reads : FileReads} (h : 0 < reads.ret x.calls)
    (hbody : x.body reads = .inl x') : x'.count = x.count + reads.ret x.calls := by
  have hquiet : ¬(reads.ret x.calls = 0 ∨
      (reads.ret x.calls = -1 ∧ reads.eno x.calls = (EAGAIN.toNat ||| EWOULDBLOCK.toNat : Nat))) := by omega
  have hreads := (if_neg hquiet).trans (if_pos h) |>.symm.trans hbody
  cases hreads
  rfl

/-- The task of `aread` passes on what is left of the file, and how much that is. -/
theorem aread_regular (rest : Bytes) : Returns (AReadTask.run (regular rest)) [(rest.length, rest)] := by
  have hpass : ∀ x : AReadTask, x.data = rest.take (x.calls * (64 * 1024)) ∧ x.count = x.data.length →
      (∃ x', x.body (regular rest) = .inl x' ∧
        (x'.data = rest.take (x'.calls * (64 * 1024)) ∧ x'.count = x'.data.length) ∧
          rest.length - x'.data.length < rest.length - x.data.length) ∨
      ∃ x', x.body (regular rest) = .inr x' ∧ x'.data = rest ∧ x'.count = rest.length ∧ x'.ret = 0 := by
    rintro x ⟨hdata, hcount⟩
    have hpiece : (regular rest).ret x.calls = ((regular rest).data x.calls).length := rfl
    rcases Nat.eq_zero_or_pos ((regular rest).data x.calls).length with hzero | hpos
    · have hret : (regular rest).ret x.calls = 0 := by omega
      have hend : rest.length ≤ x.calls * (64 * 1024) := by
        simp only [regular, List.length_take, List.length_drop] at hzero
        omega
      refine .inr ⟨_, AReadTask.body_leaves (.inl hret), ?_, ?_, hret⟩
      · exact hdata.trans (List.take_of_length_le hend)
      · rw [List.take_of_length_le hend] at hdata
        exact hcount.trans (congrArg _ (congrArg _ hdata))
    · have hret : 0 < (regular rest).ret x.calls := by omega
      obtain ⟨x', hbody, hcalls, hdata'⟩ := AReadTask.body_reads hret
      have hcount' := body_counts hret hbody
      have hlonger : x'.data.length = x.data.length + ((regular rest).data x.calls).length := by
        rw [hdata', List.length_append]
      have hall : x'.data = rest.take (x'.calls * (64 * 1024)) := by
        rw [hdata', hdata, hcalls, ← regular_delivered, ← regular_delivered, delivered_succ]
      have hle : x'.data.length ≤ rest.length := by
        rw [hall]
        exact List.length_take_le' ..
      exact .inl ⟨x', hbody, ⟨hall, by omega⟩, by omega⟩
  obtain ⟨x, ⟨fuel, hreturns⟩, hdata, hcount, hret⟩ := loop_returns (AReadTask.body (regular rest)) Nat.lt_wfRel.wf
    (fun x => rest.length - x.data.length) hpass (s := AReadTask.start) ⟨(List.take_zero ..).symm, rfl⟩
  refine ⟨fuel, Option.map_eq_some_iff.mpr ⟨x, hreturns, ?_⟩⟩
  rw [hcount, hret, hdata]
  split
  · simp_all
  · rfl

end FileReads

-- ---------------------------------------------------------------------------
-- A session
-- ---------------------------------------------------------------------------

namespace AFile

structure Holds (x : AFile) (name : Bytes) (flags pos : Nat) (c : Bytes) : Prop where
  file : ∃ fd, x.m_file = some (fd, ⟨name, flags, pos⟩)
  content : x.disk name = some c

section

variable {ndebug : Bool} {disk : Bytes → Option Bytes}

def wrote (data : Bytes) : AFileTask × List AFileEv := (.asend data, [.onWriteDone data.length data])

theorem put_end (c data : Bytes) : put c c.length data = c ++ data := by
  simp [put]

end

end AFile

open AFile

def session : List (StrandAct AFileTask (Option Nat)) :=
  let opens : AFileTask := .areopen [102] (O_CREAT ||| 2) 0o600
  let calls : List AFileTask := [opens, .aread, opens, .asend [72], .asend [105], .aread, opens, .aread]
  [.exec .start none, .exec .control none, .exec .control none] ++
    (calls.zipIdx.flatMap fun (r, i) =>
      [.call (.external (i % 2)) r true, .exec (.pushBack (.external (i % 2))) none]) ++
    List.replicate 27 (.exec (.worker 0) (some (some 7)))

end Andren.Network
