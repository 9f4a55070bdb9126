import Andren.Network.TaskDistributor

/-!
# The worker of an ordinary task

An ordinary task goes to the worker that the clock selects, modulo one less than the number of
workers. So the last of two or more workers gets no ordinary task.
-/

namespace Andren.Network

open Machines

variable {Task : Type}

def randindex (size : UInt32) (randmsec : UInt64) : UInt32 :=
  let m_size := max size 1
  let randindex : Int32 := if m_size > 1 then (randmsec % (m_size - 1).toUInt64).toUInt32.toInt32 else 0
  randindex.toUInt32

theorem toNat_max_one (size : UInt32) : (max size 1).toNat = mSize size.toNat := by
  rw [mSize, show max size 1 = if size ≤ 1 then 1 else size from rfl]
  split
  · rename_i hle
    exact (Nat.max_eq_right (UInt32.le_iff_toNat_le.mp hle)).symm
  · rename_i hgt
    exact (Nat.max_eq_left (Nat.le_of_lt (UInt32.lt_iff_toNat_lt.mp (UInt32.not_le.mp hgt)))).symm

theorem toNat_randindex (size : UInt32) (randmsec : UInt64) :
    (randindex size randmsec).toNat = typeIndex size.toNat randmsec.toNat .furture := by
  have hsize := toNat_max_one size
  have hlt := (max size 1).toNat_lt
  simp only [randindex, typeIndex]
  by_cases hone : mSize size.toNat > 1
  · have hgt : max size 1 > 1 := UInt32.lt_iff_toNat_lt.mpr (hsize ▸ hone)
    have hsub : (max size 1 - 1).toNat = mSize size.toNat - 1 := by
      rw [UInt32.toNat_sub_of_le _ _ (UInt32.le_of_lt hgt), hsize]
      rfl
    rw [if_pos hgt, if_pos hone, UInt32.toUInt32_toInt32, UInt64.toNat_toUInt32, UInt64.toNat_mod,
      UInt32.toNat_toUInt64, hsub]
    have hmod := Nat.mod_lt randmsec.toNat (Nat.sub_pos_of_lt hone)
    exact Nat.mod_eq_of_lt (by omega)
  · have hle : ¬ max size 1 > 1 := fun hgt => hone (hsize ▸ UInt32.lt_iff_toNat_lt.mp hgt)
    rw [if_neg hle, if_neg hone]
    rfl

theorem typeIndex_lt (size msec : Nat) (type : TaskDistributorTaskType) : typeIndex size msec type < mSize size := by
  have hpos := mSize_pos size
  cases type with
  | io => exact hpos
  | shcedule =>
    simp only [typeIndex]
    split <;> omega
  | furture =>
    simp only [typeIndex]
    split
    · rename_i hone
      have hmod := Nat.mod_lt msec (Nat.sub_pos_of_lt hone)
      omega
    · exact hpos

theorem furture_selects_iff (size : UInt32) (hi : i < mSize size.toNat) :
    (∃ msec : UInt64, typeIndex size.toNat msec.toNat .furture = i) ↔
      mSize size.toNat = 1 ∨ i + 1 < mSize size.toNat := by
  simp only [typeIndex]
  by_cases hone : mSize size.toNat > 1
  · simp only [if_pos hone]
    constructor
    · rintro ⟨msec, rfl⟩
      have hmod := Nat.mod_lt msec.toNat (Nat.sub_pos_of_lt hone)
      exact .inr (by omega)
    · intro hreach
      have hlt : i < mSize size.toNat - 1 := by omega
      have hsize := toNat_max_one size ▸ (max size 1).toNat_lt
      have hmsec : (UInt64.ofNat i).toNat = i := UInt64.toNat_ofNat_of_lt' (by simp only [UInt64.size]; omega)
      exact ⟨.ofNat i, by rw [hmsec, Nat.mod_eq_of_lt hlt]⟩
  · simp only [if_neg hone]
    exact iff_of_true ⟨0, by omega⟩ (.inl (by omega))

-- ---------------------------------------------------------------------------
-- A call on a distributor that was started
-- ---------------------------------------------------------------------------

theorem addTaskOf_accepted_iff {size : Nat} {s : TaskDistributor size Task} {i : Fin (mSize size)}
    (hcan : s.canCall c = true) (hstarted : s.m_tpool.isSome = true) :
    (∃ s', (taskDistributor size Task).replay s [.addTaskOf c (some t) type msec, .pushBack c] =
      some (s', [.accepted c i t])) ↔ typeIndex size msec type = i.val := by
  obtain ⟨tpool, htpool⟩ := Option.isSome_iff_exists.mp hstarted
  have hreplay : ∃ s', (taskDistributor size Task).replay s [.addTaskOf c (some t) type msec, .pushBack c] =
      some (s', [.accepted c (queueIndex size (typeIndex size msec type)) t]) := by
    simp [Machine.replay, taskDistributor, hcan, TaskDistributor.addTask, htpool]
  obtain ⟨s', hs'⟩ := hreplay
  rw [hs', queueIndex_of_lt (typeIndex_lt size msec type)]
  constructor
  · rintro ⟨_, heq⟩
    cases heq
    rfl
  · intro heq
    exact ⟨s', by rw [show i = ⟨_, typeIndex_lt size msec type⟩ from Fin.ext heq.symm]⟩

/-- Ordinary tasks get to a worker unless it is the last of two or more. -/
theorem addTask_furture_reaches_iff (size : UInt32) (s : TaskDistributor size.toNat Task) (c : Caller) (t : Task)
    (i : Fin (mSize size.toNat)) (hcan : s.canCall c = true) (hstarted : s.m_tpool.isSome = true) :
    ((∃ msec : UInt64, ∃ s', (taskDistributor size.toNat Task).replay s
        [.addTaskOf c (some t) .furture msec.toNat, .pushBack c] = some (s', [.accepted c i t])) ∧
      ∀ msec : UInt64, (randindex size msec).toNat < mSize size.toNat) ↔
      mSize size.toNat = 1 ∨ i.val + 1 < mSize size.toNat := by
  have hbound (msec : UInt64) : (randindex size msec).toNat < mSize size.toNat := by
    rw [toNat_randindex]
    exact typeIndex_lt _ _ _
  rw [and_iff_left hbound, ← furture_selects_iff size i.isLt]
  exact exists_congr fun _ => addTaskOf_accepted_iff hcan hstarted

theorem addTask_furture_reaches_iff_first : ∃ s : TaskDistributor 2 Nat,
    (taskDistributor 2 Nat).replay (.new 2 Nat) [.start, .control, .control, .control] = some (s, []) ∧
      ∃ msec : UInt64, ∃ s', (taskDistributor 2 Nat).replay s
        [.addTaskOf (.external 0) (some 7) .furture msec.toNat, .pushBack (.external 0)] =
          some (s', [.accepted (.external 0) ⟨0, by decide⟩ 7]) :=
  ⟨_, rfl, ((addTask_furture_reaches_iff 2 _ (.external 0) 7 ⟨0, by decide⟩ rfl rfl).mpr (.inr (by decide))).1⟩

theorem addTask_furture_misses_last : ∃ s : TaskDistributor 2 Nat,
    (taskDistributor 2 Nat).replay (.new 2 Nat) [.start, .control, .control, .control] = some (s, []) ∧
      ¬ ∃ msec : UInt64, ∃ s', (taskDistributor 2 Nat).replay s
        [.addTaskOf (.external 0) (some 7) .furture msec.toNat, .pushBack (.external 0)] =
          some (s', [.accepted (.external 0) ⟨1, by decide⟩ 7]) := by
  refine ⟨_, rfl, ?_⟩
  rintro ⟨msec, haccepted⟩
  have hindex := (addTaskOf_accepted_iff rfl rfl).mp haccepted
  have hselects := (furture_selects_iff 2 (i := 1) (by decide)).mp ⟨msec, hindex⟩
  revert hselects
  decide

end Andren.Network
