import Andren.Base.FourWayHeap
import Mathlib.Order.Lattice

/-!
# The heap under `MinHeap`

`MinHeap` takes its heap as a parameter. A binary and a four-way heap put pairs of equal keys
in different orders, but the keys they answer with are the same, whatever is asked of them.
-/

namespace Andren.Base

open Machines

theorem keyed_byKey (KTy VTy : Type) [LinearOrder KTy] : Keyed (@ByKey KTy VTy _) KVPair.m_key where
  congr hx hy hlt := by
    unfold ByKey at *
    rwa [← hx, ← hy]
  tie hle hge := le_antisymm (not_lt.mp hge) (not_lt.mp hle)

instance linearIsStrictWeakOrder (KTy : Type) [LinearOrder KTy] : IsStrictWeakOrder KTy (· < ·) :=
  isStrictWeakOrder_of_isOrderConnected

/-- For every sequence of operations the two heaps give answers with the same keys, and hold as many
pairs of each key. -/
theorem minHeaps_agree (KTy VTy : Type) [LinearOrder KTy] (as : List (QueueOp (KVPair KTy VTy))) :
    ∃ h h' tr tr', (queue (BinaryHeap.ops KTy VTy)).replay ⟨#[]⟩ as = some (h, tr) ∧
      (queue (FourWayHeap.ops KTy VTy)).replay ⟨#[]⟩ as = some (h', tr') ∧
      tr.map (QueueEv.map KVPair.m_key) = tr'.map (QueueEv.map KVPair.m_key) ∧
      (h.m_data.toList.map KVPair.m_key).Perm (h'.m_data.toList.map KVPair.m_key) :=
  binaryHeap_lawful.agree (keyed_byKey KTy VTy) fourWayHeap_lawful as

end Andren.Base
