import Mathlib.Algebra.Ring.Int.Defs
import Mathlib.Algebra.Ring.Nat

/-!
# Deadlines of semaphores

`PosixSignal::timeWait` and `PosixNamedSignal::clockWait` add milliseconds to a reading of
the clock. The first multiplies them as an `int`, which is too narrow from 2148 ms on
(`timeWait_after_iff`). The second adds nanoseconds without a carry into the seconds
(`clockWait_after_iff`).
-/

namespace Andren.Base

structure Timespec where
  tv_sec : BitVec 64
  tv_nsec : BitVec 64
  deriving DecidableEq

namespace Timespec

def Valid (t : Timespec) : Prop := 0 ≤ t.tv_nsec.toInt ∧ t.tv_nsec.toInt < 1000000000

instance (t : Timespec) : Decidable t.Valid := inferInstanceAs (Decidable (_ ∧ _))

def nanoseconds (t : Timespec) : Int := t.tv_sec.toInt * 1000000000 + t.tv_nsec.toInt

/-- `t` is a timespec for `msec` milliseconds after `now`. -/
def After (now : Timespec) (msec : Int) (t : Timespec) : Prop :=
  t.Valid ∧ t.nanoseconds = now.nanoseconds + msec * 1000000

instance (now : Timespec) (msec : Int) (t : Timespec) : Decidable (now.After msec t) :=
  inferInstanceAs (Decidable (_ ∧ _))

end Timespec

/-- What `timeWait` passes to `sem_timedwait`, for the reading `tsp`. -/
def timeWait (tsp : Timespec) (msec : BitVec 32) : Timespec :=
  let nsec := tsp.tv_sec * 1000 * 1000 * 1000 + tsp.tv_nsec + (msec * 1000 * 1000).signExtend 64
  ⟨nsec / (1000 * 1000 * 1000), nsec % (1000 * 1000 * 1000)⟩

def clockDeadline (tsp : Timespec) (msec : BitVec 32) : Timespec :=
  ⟨tsp.tv_sec + (msec / 1000).setWidth 64, tsp.tv_nsec + (msec % 1000 * 1000 * 1000).setWidth 64⟩

/-- What `clockWait` passes to `sem_clockwait`, for the reading `tsp`. Without a semaphore it
returns -1 before. -/
def clockWait (m_sem : Nat) (tsp : Timespec) (msec : BitVec 32) : Option Timespec :=
  if m_sem ≠ 0 then some (clockDeadline tsp msec) else none

section

variable {tsp : Timespec} {msec : BitVec 32}

theorem toInt_setWidth (x : BitVec 32) : (x.setWidth 64).toInt = x.toNat := by
  have hlt := x.isLt
  rw [BitVec.toInt_eq_toNat_of_lt, BitVec.toNat_setWidth_of_le (by decide)]
  rw [BitVec.toNat_setWidth_of_le (by decide)]
  omega

/-- An addition in 64 bits is exact just when the sum is below `2 ^ 63`. -/
theorem bmod_eq_self_iff {n k : Int} (hn : -2 ^ 63 ≤ n) (hk : 0 ≤ k) :
    (n + k).bmod (2 ^ 64) = n + k ↔ n + k < 2 ^ 63 := by
  constructor
  · intro h
    have hlt := Int.bmod_lt (x := n + k) (m := 2 ^ 64) (by decide)
    rw [h] at hlt
    exact hlt
  · intro h
    exact Int.bmod_eq_of_le (by omega) (by omega)

theorem clockDeadline_nsec (hnsec : tsp.Valid) (msec : BitVec 32) :
    (clockDeadline tsp msec).tv_nsec.toInt = tsp.tv_nsec.toInt + msec.toNat % 1000 * 1000000 := by
  obtain ⟨h0, hlt⟩ := hnsec
  have hmul : ((msec % 1000 * 1000 * 1000).setWidth 64).toInt = msec.toNat % 1000 * 1000000 := by
    rw [toInt_setWidth, BitVec.toNat_mul, BitVec.toNat_mul, BitVec.toNat_umod]
    simp
    omega
  rw [clockDeadline, BitVec.toInt_add, hmul]
  exact Int.bmod_eq_of_le (by omega) (by omega)

theorem clockDeadline_sec (tsp : Timespec) (msec : BitVec 32) :
    (clockDeadline tsp msec).tv_sec.toInt = (tsp.tv_sec.toInt + msec.toNat / 1000).bmod (2 ^ 64) := by
  rw [clockDeadline, BitVec.toInt_add, toInt_setWidth, BitVec.toNat_udiv]
  rfl

/-- The deadline is right just when the milliseconds beyond whole seconds stay within the
second of the reading, and the seconds within their type. -/
theorem clockWait_after_iff (hnsec : tsp.Valid) (ht : clockWait m_sem tsp msec = some t) :
    tsp.After msec.toNat t ↔ tsp.tv_nsec.toInt + msec.toNat % 1000 * 1000000 < 1000000000 ∧
      tsp.tv_sec.toInt + msec.toNat / 1000 < 2 ^ 63 := by
  obtain ⟨-, ht⟩ := Option.ite_none_right_eq_some.mp ht
  cases ht
  have hsec := BitVec.le_toInt tsp.tv_sec
  have h0 := hnsec.1
  have hmod := Int.mul_ediv_add_emod (msec.toNat : Int) 1000
  rw [← bmod_eq_self_iff hsec (by omega), ← clockDeadline_sec]
  simp only [Timespec.After, Timespec.Valid, Timespec.nanoseconds, clockDeadline_nsec hnsec]
  omega

theorem clockWait_after_iff_carry :
    Timespec.After ⟨5, 250000000⟩ (1750 : BitVec 32).toNat ⟨6, 1000000000⟩ ↔
      (250000000 : BitVec 64).toInt + (1750 : BitVec 32).toNat % 1000 * 1000000 < 1000000000 ∧
        (5 : BitVec 64).toInt + (1750 : BitVec 32).toNat / 1000 < 2 ^ 63 :=
  @clockWait_after_iff ⟨5, 250000000⟩ 1750 1 ⟨6, 1000000000⟩ (by decide) rfl

theorem clockWait_invalid : ¬∀ (m_sem : Nat) (tsp : Timespec) (msec : BitVec 32) (t : Timespec), tsp.Valid →
    clockWait m_sem tsp msec = some t → tsp.After msec.toNat t := by
  intro h
  exact absurd (h 1 ⟨0, 999999999⟩ 1 ⟨0, 1000999999⟩ (by decide) rfl) (by decide)

theorem toNat_eq_emod (x : BitVec 64) : (x.toNat : Int) = x.toInt % 2 ^ 64 := by
  have hlt := x.isLt
  have hemod : Int.bmod x.toNat (2 ^ 64) % (2 ^ 64 : Nat) = x.toNat % (2 ^ 64 : Nat) := Int.bmod_emod
  rw [BitVec.toInt_eq_toNat_bmod]
  omega

theorem timeWait_nsec (tsp : Timespec) (msec : BitVec 32) :
    ((tsp.tv_sec * 1000 * 1000 * 1000 + tsp.tv_nsec + (msec * 1000 * 1000).signExtend 64).toNat : Int) =
      (tsp.nanoseconds + (msec.toInt * 1000000).bmod (2 ^ 32)) % 2 ^ 64 := by
  have hemod : ∀ n : Int, n.bmod (2 ^ 64) % (2 ^ 64 : Nat) = n % (2 ^ 64 : Nat) := fun _ => Int.bmod_emod
  rw [toNat_eq_emod]
  refine .trans ?_ (hemod _)
  simp [BitVec.toInt_signExtend_of_le, BitVec.toInt_add, BitVec.toInt_mul, Timespec.nanoseconds, Int.mul_assoc]

theorem after_split_iff (now : Timespec) (msec : Int) (n : BitVec 64) :
    now.After msec ⟨n / (1000 * 1000 * 1000), n % (1000 * 1000 * 1000)⟩ ↔
      (n.toNat : Int) = now.nanoseconds + msec * 1000000 := by
  have hlt := n.isLt
  have hdiv : (n / (1000 * 1000 * 1000)).toInt = n.toNat / 1000000000 := by
    rw [BitVec.toInt_eq_toNat_of_lt] <;> rw [BitVec.toNat_udiv]
    · rfl
    · simp
      omega
  have hmod : (n % (1000 * 1000 * 1000)).toInt = n.toNat % 1000000000 := by
    rw [BitVec.toInt_eq_toNat_of_lt] <;> rw [BitVec.toNat_umod]
    · rfl
    · simp
      omega
  simp only [Timespec.After, Timespec.Valid, Timespec.nanoseconds, hdiv, hmod]
  omega

/-- The deadline is right just when the milliseconds fit, as nanoseconds, an `int`. -/
theorem timeWait_after_iff (hsec : 0 ≤ tsp.tv_sec.toInt) (hlt : tsp.tv_sec.toInt < 2 ^ 33) (hnsec : tsp.Valid)
    (hmsec : 0 ≤ msec.toInt) : tsp.After msec.toInt (timeWait tsp msec) ↔ msec.toInt ≤ 2147 := by
  obtain ⟨h0, hlt'⟩ := hnsec
  have hupper := BitVec.toInt_lt (x := msec)
  rw [timeWait, after_split_iff, timeWait_nsec, Timespec.nanoseconds]
  constructor
  · intro heq
    have hlow := Int.le_bmod (x := msec.toInt * 1000000) (m := 2 ^ 32) (by decide)
    have hhigh := Int.bmod_lt (x := msec.toInt * 1000000) (m := 2 ^ 32) (by decide)
    generalize (msec.toInt * 1000000).bmod (2 ^ 32) = x at heq hlow hhigh
    -- the sum is negative only within the first seconds of the epoch
    by_cases hneg : tsp.tv_sec.toInt * 1000000000 + tsp.tv_nsec.toInt + x < 0
    · have hwrap : (tsp.tv_sec.toInt * 1000000000 + tsp.tv_nsec.toInt + x) % 2 ^ 64 =
          tsp.tv_sec.toInt * 1000000000 + tsp.tv_nsec.toInt + x + 2 ^ 64 := by omega
      omega
    · have hsame : (tsp.tv_sec.toInt * 1000000000 + tsp.tv_nsec.toInt + x) % 2 ^ 64 =
          tsp.tv_sec.toInt * 1000000000 + tsp.tv_nsec.toInt + x := by omega
      omega
  · intro hle
    rw [Int.bmod_eq_of_le (by omega) (by omega)]
    omega

theorem timeWait_after_iff_second :
    Timespec.After ⟨1700000000, 999999999⟩ 1000 (timeWait ⟨1700000000, 999999999⟩ 1000) ↔
      (1000 : BitVec 32).toInt ≤ 2147 :=
  timeWait_after_iff (by decide) (by decide) (by decide) (by decide)

/-- 2148 milliseconds, where `2148 * 1000 * 1000` is negative as an `int`. -/
theorem timeWait_too_early : ¬∀ (tsp : Timespec) (msec : BitVec 32), 0 ≤ tsp.tv_sec.toInt → tsp.tv_sec.toInt < 2 ^ 33 →
    tsp.Valid → 0 ≤ msec.toInt → tsp.After msec.toInt (timeWait tsp msec) := by
  intro h
  exact absurd (h ⟨1700000000, 0⟩ 2148 (by decide) (by decide) (by decide) (by decide)) (by decide)

end

end Andren.Base
