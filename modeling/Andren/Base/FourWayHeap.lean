import Andren.Base.BinaryHeap

/-!
# The four-way heap

`FourWayHeap` is `BinaryHeap` over a tree in which each position has up to four
children. `sift_down` finds the least of them with a running minimum.
-/

namespace Andren.Base

open Heaps Machines

structure FourWayHeap (KTy VTy : Type) where
  m_data : Array (KVPair KTy VTy)

namespace FourWayHeap

variable {KTy VTy : Type} [LT KTy] [DecidableLT KTy]

def parent (i : Nat) : Nat := (i - 1) / 4

def child (i k : Nat) : Nat := i * 4 + k

def push (h : FourWayHeap KTy VTy) (key : KTy) (val : VTy) : FourWayHeap KTy VTy :=
  ⟨Heaps.push BinaryHeap.less parent h.m_data ⟨key, val⟩⟩

def minPair (h : FourWayHeap KTy VTy) : Option (KVPair KTy VTy) := h.m_data[0]?

def extractMinPair (h : FourWayHeap KTy VTy) : FourWayHeap KTy VTy × Option (KVPair KTy VTy) :=
  let (m_data, ret) := extract BinaryHeap.less (fun i => [1, 2, 3, 4].map (child i)) h.m_data
  (⟨m_data⟩, ret)

def clear (_ : FourWayHeap KTy VTy) : FourWayHeap KTy VTy := ⟨#[]⟩

def size (h : FourWayHeap KTy VTy) : Nat := h.m_data.size

def ops (KTy VTy : Type) [LT KTy] [DecidableLT KTy] : QueueOps (FourWayHeap KTy VTy) (KVPair KTy VTy) where
  new := ⟨#[]⟩
  push h p := h.push p.m_key p.m_val
  least := minPair
  extract := extractMinPair
  clear := clear

end FourWayHeap

def fourWayHeap (KTy VTy : Type) [LT KTy] [DecidableLT KTy] : MinHeapTy KTy VTy where
  Heap := FourWayHeap KTy VTy
  new := ⟨#[]⟩
  push := FourWayHeap.push
  minPair := FourWayHeap.minPair
  extractMinPair := FourWayHeap.extractMinPair
  size := FourWayHeap.size
  pairs h := h.m_data.toList
  pairs_new := rfl
  pairs_push h key val := perm_push _ _ h.m_data ⟨key, val⟩
  size_eq h := rfl
  minPair_some h hsize := ⟨_, Array.getElem?_eq_getElem hsize⟩
  extract_some h hsize := by
    obtain ⟨m_data, p, hret, hperm⟩ := extract_some hsize
    refine ⟨⟨m_data⟩, p, ?_, hperm⟩
    rw [FourWayHeap.extractMinPair, hret]

section

variable {KTy VTy : Type} [LT KTy] [DecidableLT KTy]

theorem fourWayHeap_shape : Shape FourWayHeap.parent fun i => [1, 2, 3, 4].map (FourWayHeap.child i) := by
  refine ⟨?_, ?_⟩
  · intro i hi
    unfold FourWayHeap.parent
    omega
  · intro i j
    simp only [List.map_cons, List.map_nil, List.mem_cons, List.not_mem_nil, or_false, FourWayHeap.parent,
      FourWayHeap.child]
    omega

theorem fourWayHeap_lawful [IsStrictWeakOrder KTy (· < ·)] : Lawful (FourWayHeap.ops KTy VTy) ByKey
    (fun h => Ordered BinaryHeap.less FourWayHeap.parent h.m_data) fun h => h.m_data.toList := by
  rw [← less_eq_byKey]
  refine (arrayQueue_lawful fourWayHeap_shape).comap FourWayHeap.m_data rfl ?_ ?_ ?_ ?_
  all_goals intros; rfl

end

/-- Over keys in a strict weak order: in every run no pair is before its parent,
the heap holds the pairs pushed and not extracted, each answer is a pair of a
least key, and draining the heap yields all pairs in the order of their keys. -/
theorem fourWayHeap_is_queue (KTy VTy : Type) [LT KTy] [DecidableLT KTy] [IsStrictWeakOrder KTy (· < ·)]
    (tr : List (QueueEv (KVPair KTy VTy))) (h : FourWayHeap KTy VTy)
    (hrun : (queue (FourWayHeap.ops KTy VTy)).Run tr h) :
    Ordered BinaryHeap.less FourWayHeap.parent h.m_data ∧ Stored tr h.m_data.toList ∧
      Always (Answers ByKey) tr ∧ ((FourWayHeap.ops KTy VTy).drain h.size h).Perm h.m_data.toList ∧
      ((FourWayHeap.ops KTy VTy).drain h.size h).Pairwise fun a b => ¬ByKey b a := by
  obtain ⟨hordered, hstored, hanswers⟩ := fourWayHeap_lawful.run hrun
  obtain ⟨hperm, hsorted⟩ := fourWayHeap_lawful.drain hordered (Nat.le_refl h.size)
  exact ⟨hordered, hstored, hanswers, hperm, hsorted⟩

theorem fourWayHeap_is_queue_run : ∃ tr h, (queue (FourWayHeap.ops Nat Nat)).Run tr h ∧
    tr = [.pushed ⟨5, 0⟩, .pushed ⟨3, 1⟩, .pushed ⟨4, 2⟩, .pushed ⟨3, 3⟩, .pushed ⟨2, 4⟩, .pushed ⟨6, 5⟩,
      .pushed ⟨1, 6⟩, .extracted (some ⟨1, 6⟩), .extracted (some ⟨2, 4⟩), .least (some ⟨3, 3⟩)] ∧
    Ordered BinaryHeap.less FourWayHeap.parent h.m_data ∧ Always (Answers ByKey) tr := by
  have hr : ((queue (FourWayHeap.ops Nat Nat)).replay ⟨#[]⟩
      [.push ⟨5, 0⟩, .push ⟨3, 1⟩, .push ⟨4, 2⟩, .push ⟨3, 3⟩, .push ⟨2, 4⟩, .push ⟨6, 5⟩, .push ⟨1, 6⟩,
        .extract, .extract, .least]).isSome := rfl
  have hrun := Machine.steps_of_replay (Option.some_get hr).symm
  have h := fourWayHeap_is_queue Nat Nat _ _ hrun
  exact ⟨_, _, hrun, rfl, h.1, h.2.2.1⟩

end Andren.Base
