import Andren.Machine.PriorityQueue
import Mathlib.Data.Nat.Basic
import Mathlib.Order.RelClasses

/-!
# The binary heap

`MinHeap` wraps a heap class and passes every call on. `MinHeapTy` is what a
user of it can rely on: the pairs stored are those pushed and not extracted.
`BinaryHeap` keeps its pairs in an array, and is such a heap.

When the keys are in a strict weak order it is a priority queue: after any
operations no pair is before its parent, and what comes out is a least one
(`binaryHeap_is_queue`).
-/

namespace Andren.Base

open Heaps Machines

structure KVPair (KTy VTy : Type) where
  m_key : KTy
  m_val : VTy
  deriving DecidableEq

/-- A `MinHeap` over some heap class, with the pairs that it stores. -/
structure MinHeapTy (KTy VTy : Type) where
  Heap : Type
  new : Heap
  push : Heap → KTy → VTy → Heap
  minPair : Heap → Option (KVPair KTy VTy)
  extractMinPair : Heap → Heap × Option (KVPair KTy VTy)
  size : Heap → Nat
  pairs : Heap → List (KVPair KTy VTy)
  pairs_new : pairs new = []
  pairs_push : ∀ h key val, (pairs (push h key val)).Perm (⟨key, val⟩ :: pairs h)
  size_eq : ∀ h, size h = (pairs h).length
  minPair_some : ∀ h, 0 < size h → ∃ p, minPair h = some p
  extract_some : ∀ h, 0 < size h → ∃ h' p, extractMinPair h = (h', some p) ∧ (pairs h).Perm (p :: pairs h')

structure BinaryHeap (KTy VTy : Type) where
  m_data : Array (KVPair KTy VTy)

namespace BinaryHeap

variable {KTy VTy : Type} [LT KTy] [DecidableLT KTy]

def parent (i : Nat) : Nat := (i - 1) / 2

def left (i : Nat) : Nat := i * 2 + 1

def right (i : Nat) : Nat := i * 2 + 2

def less (a b : KVPair KTy VTy) : Bool := a.m_key < b.m_key

def push (h : BinaryHeap KTy VTy) (key : KTy) (val : VTy) : BinaryHeap KTy VTy :=
  ⟨Heaps.push less parent h.m_data ⟨key, val⟩⟩

def minPair (h : BinaryHeap KTy VTy) : Option (KVPair KTy VTy) := h.m_data[0]?

/-- The last pair takes the place of the first, then `sift_down`. -/
def extractMinPair (h : BinaryHeap KTy VTy) : BinaryHeap KTy VTy × Option (KVPair KTy VTy) :=
  let (m_data, ret) := extract less (fun i => [left i, right i]) h.m_data
  (⟨m_data⟩, ret)

def clear (_ : BinaryHeap KTy VTy) : BinaryHeap KTy VTy := ⟨#[]⟩

def size (h : BinaryHeap KTy VTy) : Nat := h.m_data.size

end BinaryHeap

def binaryHeap (KTy VTy : Type) [LT KTy] [DecidableLT KTy] : MinHeapTy KTy VTy where
  Heap := BinaryHeap KTy VTy
  new := ⟨#[]⟩
  push := BinaryHeap.push
  minPair := BinaryHeap.minPair
  extractMinPair := BinaryHeap.extractMinPair
  size := BinaryHeap.size
  pairs h := h.m_data.toList
  pairs_new := rfl
  pairs_push h key val := perm_push _ _ h.m_data ⟨key, val⟩
  size_eq h := rfl
  minPair_some h hsize := ⟨_, Array.getElem?_eq_getElem hsize⟩
  extract_some h hsize := by
    obtain ⟨m_data, p, hret, hperm⟩ := extract_some hsize
    refine ⟨⟨m_data⟩, p, ?_, hperm⟩
    rw [BinaryHeap.extractMinPair, hret]

example : ((binaryHeap Nat Nat).extractMinPair
    ((binaryHeap Nat Nat).push ((binaryHeap Nat Nat).push ((binaryHeap Nat Nat).push ⟨#[]⟩ 5 0) 3 1) 4 2)).2 =
      some ⟨3, 1⟩ := rfl

-- ---------------------------------------------------------------------------
-- A priority queue
-- ---------------------------------------------------------------------------

section

variable {KTy VTy : Type} [LT KTy]

def ByKey (a b : KVPair KTy VTy) : Prop := a.m_key < b.m_key

variable [DecidableLT KTy]

theorem less_eq_byKey : (fun a b => (BinaryHeap.less a b : Prop)) = @ByKey KTy VTy _ := by
  funext a b
  exact decide_eq_true_eq

instance [IsStrictWeakOrder KTy (· < ·)] :
    IsStrictWeakOrder (KVPair KTy VTy) fun a b => BinaryHeap.less a b := by
  rw [less_eq_byKey]
  exact inferInstanceAs (IsStrictWeakOrder _ (Function.onFun (· < ·) KVPair.m_key))

def BinaryHeap.ops (KTy VTy : Type) [LT KTy] [DecidableLT KTy] :
    QueueOps (BinaryHeap KTy VTy) (KVPair KTy VTy) where
  new := ⟨#[]⟩
  push h p := h.push p.m_key p.m_val
  least := minPair
  extract := extractMinPair
  clear := clear

theorem binaryHeap_shape : Shape BinaryHeap.parent fun i => [BinaryHeap.left i, BinaryHeap.right i] := by
  refine ⟨?_, ?_⟩
  · intro i hi
    unfold BinaryHeap.parent
    omega
  · intro i j
    simp only [List.mem_cons, List.not_mem_nil, or_false, BinaryHeap.parent, BinaryHeap.left, BinaryHeap.right]
    omega

theorem binaryHeap_lawful [IsStrictWeakOrder KTy (· < ·)] : Lawful (BinaryHeap.ops KTy VTy) ByKey
    (fun h => Ordered BinaryHeap.less BinaryHeap.parent h.m_data) fun h => h.m_data.toList := by
  rw [← less_eq_byKey]
  refine (arrayQueue_lawful binaryHeap_shape).comap BinaryHeap.m_data rfl ?_ ?_ ?_ ?_
  all_goals intros; rfl

end

/-- Over keys in a strict weak order: in every run no pair is before its parent,
the heap holds the pairs pushed and not extracted, each answer is a pair of a
least key, and draining the heap yields all pairs in the order of their keys. -/
theorem binaryHeap_is_queue (KTy VTy : Type) [LT KTy] [DecidableLT KTy] [IsStrictWeakOrder KTy (· < ·)]
    (tr : List (QueueEv (KVPair KTy VTy))) (h : BinaryHeap KTy VTy)
    (hrun : (queue (BinaryHeap.ops KTy VTy)).Run tr h) :
    Ordered BinaryHeap.less BinaryHeap.parent h.m_data ∧ Stored tr h.m_data.toList ∧
      Always (Answers ByKey) tr ∧ ((BinaryHeap.ops KTy VTy).drain h.size h).Perm h.m_data.toList ∧
      ((BinaryHeap.ops KTy VTy).drain h.size h).Pairwise fun a b => ¬ByKey b a := by
  obtain ⟨hordered, hstored, hanswers⟩ := binaryHeap_lawful.run hrun
  obtain ⟨hperm, hsorted⟩ := binaryHeap_lawful.drain hordered (Nat.le_refl h.size)
  exact ⟨hordered, hstored, hanswers, hperm, hsorted⟩

instance natIsStrictWeakOrder : IsStrictWeakOrder Nat (· < ·) := isStrictWeakOrder_of_isOrderConnected

theorem binaryHeap_is_queue_run : ∃ tr h, (queue (BinaryHeap.ops Nat Nat)).Run tr h ∧
    tr = [.pushed ⟨5, 0⟩, .pushed ⟨3, 1⟩, .pushed ⟨4, 2⟩, .pushed ⟨3, 3⟩, .pushed ⟨1, 4⟩,
      .least (some ⟨1, 4⟩), .extracted (some ⟨1, 4⟩)] ∧
    Ordered BinaryHeap.less BinaryHeap.parent h.m_data ∧ Always (Answers ByKey) tr := by
  have hr : ((queue (BinaryHeap.ops Nat Nat)).replay ⟨#[]⟩
      [.push ⟨5, 0⟩, .push ⟨3, 1⟩, .push ⟨4, 2⟩, .push ⟨3, 3⟩, .push ⟨1, 4⟩, .least, .extract]).isSome := rfl
  have hrun := Machine.steps_of_replay (Option.some_get hr).symm
  have h := binaryHeap_is_queue Nat Nat _ _ hrun
  exact ⟨_, _, hrun, rfl, h.1, h.2.2.1⟩

end Andren.Base
