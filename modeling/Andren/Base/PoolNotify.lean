import Andren.Base.ThreadPool

/-!
# The thread numbers of a pool

`exec` and `notifyThread` of both pools test the number of a thread by hand. `exec` refuses
the number of threads, and `notifyThread` takes it and reads past the array.
-/

namespace Andren.Base

variable {Task : Type}

structure PoolData (Task : Type) where
  isExit : Bool
  thread_count : UInt32
  perthread_data : List (PerThread Task)
  size : perthread_data.length = thread_count.toNat

namespace PoolData

def new (Task : Type) (_thread_count : UInt32) : PoolData Task where
  isExit := false
  thread_count := _thread_count
  perthread_data := List.replicate _thread_count.toNat ⟨false, []⟩
  size := List.length_replicate

def emplace (d : PoolData Task) (task : Task) (threadno : UInt32) : PoolData Task where
  isExit := d.isExit
  thread_count := d.thread_count
  perthread_data := d.perthread_data.modify threadno.toNat fun p => { p with tasks := p.tasks ++ [task] }
  size := by rw [List.length_modify, d.size]

end PoolData

/-- What a call returns and leaves, and the elements of `perthread_data` that it indexes. -/
structure PoolResult (Task : Type) where
  ret : Bool
  indexed : List UInt32
  m_data : Option (PoolData Task)

/-- A pool that was default constructed or moved from has no data. -/
def poolExec (m_data : Option (PoolData Task)) (task : Task) (threadno : UInt32) : PoolResult Task :=
  match m_data with
  | none => ⟨false, [], none⟩
  | some d =>
    if threadno ≥ d.thread_count ∨ d.isExit then ⟨false, [], some d⟩
    -- the mutex, the queue and the condition variable
    else ⟨true, [threadno, threadno, threadno], some (d.emplace task threadno)⟩

def poolNotifyThread (m_data : Option (PoolData Task)) (index : UInt32) : PoolResult Task :=
  match m_data with
  | none => ⟨false, [], none⟩
  | some d => if index > d.thread_count ∨ d.isExit then ⟨false, [], some d⟩ else ⟨true, [index], some d⟩

structure PoolClass (Task : Type) where
  exec : Option (PoolData Task) → Task → UInt32 → PoolResult Task
  notifyThread : Option (PoolData Task) → UInt32 → PoolResult Task

def threadPool (Task : Type) : PoolClass Task where
  exec := poolExec
  notifyThread := poolNotifyThread

def threadPoolPortable (Task : Type) : PoolClass Task where
  exec := poolExec
  notifyThread := poolNotifyThread

-- ---------------------------------------------------------------------------
-- What each call takes
-- ---------------------------------------------------------------------------

section

variable {d : PoolData Task} {task : Task} {index : UInt32}

theorem ret_ite_iff {refused : Prop} [Decidable refused] {r r' : PoolResult Task} (hr : r.ret = false)
    (hr' : r'.ret = true) : (if refused then r else r').ret = true ↔ ¬refused := by
  split
  · rename_i hrefused
    exact iff_of_false (by simp [hr]) (not_not_intro hrefused)
  · rename_i htaken
    exact iff_of_true hr' htaken

theorem poolExec_ret : (poolExec (some d) task index).ret = true ↔ index < d.thread_count ∧ d.isExit = false := by
  rw [poolExec, ret_ite_iff rfl rfl, not_or, ge_iff_le, UInt32.not_le, Bool.not_eq_true]

theorem poolNotifyThread_ret :
    (poolNotifyThread (some d) index).ret = true ↔ index ≤ d.thread_count ∧ d.isExit = false := by
  rw [poolNotifyThread, ret_ite_iff rfl rfl, not_or, gt_iff_lt, UInt32.not_lt, Bool.not_eq_true]

theorem mem_poolExec_indexed {i : UInt32} :
    i ∈ (poolExec (some d) task index).indexed ↔ i = index ∧ (poolExec (some d) task index).ret = true := by
  rw [poolExec]
  split <;> simp

theorem mem_poolNotifyThread_indexed {i : UInt32} :
    i ∈ (poolNotifyThread (some d) index).indexed ↔ i = index ∧ (poolNotifyThread (some d) index).ret = true := by
  rw [poolNotifyThread]
  split <;> simp

end

/-- The pool of one channel for each worker refuses what `exec` refuses. -/
theorem pool_refuses_iff (s : Pool d.thread_count.toNat Task) (hexit : s.isExit = d.isExit) :
    (pool msec d.thread_count.toNat Task).step s (.exec task threadno.toNat) = some (s, [.refused threadno.toNat]) ↔
      (poolExec (some d) task threadno).ret = false := by
  rw [← Bool.not_eq_true, poolExec_ret, ← hexit, UInt32.lt_iff_toNat_lt]
  simp only [pool]
  split
  · rename_i hlt
    cases s.isExit <;> simp [hlt]
  · rename_i hge
    simp [hge]

-- ---------------------------------------------------------------------------
-- Agreement
-- ---------------------------------------------------------------------------

/-- The calls take the same numbers, and index only elements that there are. -/
structure PoolClass.Agrees (cls : PoolClass Task) (m_data : Option (PoolData Task)) (task : Task) (index : UInt32) :
    Prop where
  ret : (cls.notifyThread m_data index).ret = true ↔ (cls.exec m_data task index).ret = true
  inside : ∀ d, m_data = some d →
    ∀ i ∈ (cls.exec m_data task index).indexed ++ (cls.notifyThread m_data index).indexed, i < d.thread_count

theorem pool_agrees_iff (m_data : Option (PoolData Task)) (task : Task) (index : UInt32) :
    PoolClass.Agrees ⟨poolExec, poolNotifyThread⟩ m_data task index ↔
      ∀ d, m_data = some d → d.isExit = false → index ≠ d.thread_count := by
  constructor
  · rintro ⟨-, hinside⟩ d rfl hexit rfl
    -- `notifyThread` takes the number of threads
    have hindexed := mem_poolNotifyThread_indexed.mpr ⟨rfl, poolNotifyThread_ret.mpr ⟨UInt32.le_refl _, hexit⟩⟩
    exact UInt32.lt_irrefl _ (hinside d rfl _ (List.mem_append_right _ hindexed))
  · intro hne
    cases m_data with
    | none => exact ⟨Iff.rfl, nofun⟩
    | some d =>
      have hlt (hret : (poolNotifyThread (some d) index).ret = true) : index < d.thread_count ∧ d.isExit = false := by
        obtain ⟨hle, hexit⟩ := poolNotifyThread_ret.mp hret
        exact ⟨UInt32.lt_of_le_of_ne hle (hne d rfl hexit), hexit⟩
      refine ⟨⟨fun h => poolExec_ret.mpr (hlt h), fun h => ?_⟩, ?_⟩
      · obtain ⟨hlt, hexit⟩ := poolExec_ret.mp h
        exact poolNotifyThread_ret.mpr ⟨UInt32.le_of_lt hlt, hexit⟩
      · rintro _ ⟨⟩ i hi
        rcases List.mem_append.mp hi with hi | hi
        · obtain ⟨rfl, hret⟩ := mem_poolExec_indexed.mp hi
          exact (poolExec_ret.mp hret).1
        · obtain ⟨rfl, hret⟩ := mem_poolNotifyThread_indexed.mp hi
          exact (hlt hret).1

/-- The two calls of either class agree but for the number of threads of a pool that runs. -/
theorem exec_notifyThread_agree_iff (Task : Type) (m_data : Option (PoolData Task)) (task : Task) (index : UInt32) :
    (threadPool Task).Agrees m_data task index ∧ (threadPoolPortable Task).Agrees m_data task index ↔
      ∀ d, m_data = some d → d.isExit = false → index ≠ d.thread_count :=
  (and_self_iff (a := _)).trans (pool_agrees_iff m_data task index)

/-- A pool of one thread: `notifyThread(1)` notifies past the array, and `exec` refuses. -/
theorem notifyThread_past_array : ¬ (threadPool Nat).Agrees (some (.new Nat 1)) 0 1 ∧
    ¬ (threadPoolPortable Nat).Agrees (some (.new Nat 1)) 0 1 := by
  have hdiffer : ¬ ((poolNotifyThread (some (.new Nat 1)) 1).ret = true ↔
      (poolExec (some (.new Nat 1)) 0 1).ret = true) := by decide
  exact ⟨fun h => hdiffer h.ret, fun h => hdiffer h.ret⟩

end Andren.Base
