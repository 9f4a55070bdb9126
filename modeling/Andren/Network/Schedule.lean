import Mathlib.Data.Int.ModEq

/-!
# The thread plan

`Schedule` gives each key a fixed thread. The overload for `uint64_t` reduces
the key itself, the one for `int64_t` its absolute value; `doSchedule_agree`
says for which keys that is the same thread.
-/

namespace Andren.Network

structure Schedule where
  m_threadSize : BitVec 32

namespace Schedule

/-- `v % m_threadSize`, which converts the `int` to `uint64_t`. -/
def modThreads (s : Schedule) (v : BitVec 64) : Option (BitVec 32) :=
  if s.m_threadSize = 0 then none
  else some ((v % s.m_threadSize.signExtend 64).setWidth 32)

def doScheduleUint64 (s : Schedule) (key : BitVec 64) : Option (BitVec 32) := s.modThreads key

/-- `doSchedule(int64_t)`. The absolute value of the least key is out of range;
its bits stay as they are. -/
def doScheduleInt64 (s : Schedule) (key : BitVec 64) : Option (BitVec 32) := s.modThreads key.abs

theorem modThreads_eq {s : Schedule} (hn : 0 < s.m_threadSize.toInt) (v : BitVec 64) :
    ∃ r, s.modThreads v = some r ∧ r.toNat < s.m_threadSize.toNat ∧
      (r.toNat : Int) = v.toNat % s.m_threadSize.toInt := by
  have hmsb : s.m_threadSize.msb = false := by
    rw [BitVec.msb_eq_toInt]
    exact decide_eq_false (Int.not_lt.mpr (Int.le_of_lt hn))
  have hzero : s.m_threadSize ≠ 0 := by
    intro h
    rw [h] at hn
    cases hn
  have hnat := BitVec.toInt_eq_toNat_of_msb hmsb
  have hlt : v.toNat % s.m_threadSize.toNat < s.m_threadSize.toNat := Nat.mod_lt _ (by omega)
  refine ⟨_, if_neg hzero, ?_⟩
  rw [BitVec.signExtend_eq_setWidth_of_msb_false hmsb, BitVec.toNat_setWidth, BitVec.toNat_umod,
    BitVec.toNat_setWidth_of_le (by decide), hnat, Nat.mod_eq_of_lt (hlt.trans s.m_threadSize.isLt)]
  exact ⟨hlt, rfl⟩

/-- Both overloads choose the same thread just when the key is not negative, or
the number of threads divides the difference to its absolute value. -/
theorem doSchedule_agree {s : Schedule} (hn : 0 < s.m_threadSize.toInt) (key : BitVec 64) :
    s.doScheduleUint64 key = s.doScheduleInt64 key ↔
      0 ≤ key.toInt ∨ s.m_threadSize.toInt ∣ 2 ^ 64 + 2 * key.toInt := by
  obtain ⟨r, hr, -, hkey⟩ := modThreads_eq hn key
  obtain ⟨r', hr', -, habs⟩ := modThreads_eq hn key.abs
  have hiff : s.doScheduleUint64 key = s.doScheduleInt64 key ↔
      (key.toNat : Int) ≡ key.abs.toNat [ZMOD s.m_threadSize.toInt] := by
    rw [doScheduleUint64, doScheduleInt64, hr, hr', Option.some.injEq, BitVec.toNat_inj.symm,
      ← Int.natCast_inj, hkey, habs]
    rfl
  rw [hiff]
  cases hmsb : key.msb with
  | false =>
    have hnonneg := BitVec.toInt_nonneg_of_msb_false hmsb
    simp [BitVec.toNat_abs, hmsb, hnonneg]
  | true =>
    have hneg := BitVec.toInt_neg_of_msb_true hmsb
    have hint : key.toInt = key.toNat - 2 ^ 64 := by
      rw [BitVec.toInt_eq_msb_cond, hmsb]
      rfl
    have hdiff : (key.toNat : Int) - key.abs.toNat = 2 ^ 64 + 2 * key.toInt := by
      rw [BitVec.toNat_abs, if_pos hmsb]
      have := key.isLt
      omega
    rw [Int.modEq_comm, Int.modEq_iff_dvd, hdiff]
    exact ⟨.inr, fun h => h.resolve_left (Int.not_le.mpr hneg)⟩

end Schedule

end Andren.Network
