import Mathlib.Data.List.Basic

/-!
# Vectors that grow

An element gets into a vector through the move constructor of its type, once when it is
put there and again whenever the vector outgrows its storage. When a second move changes
nothing that the first has left, the vector holds each element as one move leaves it
(`elems_push_back`).
-/

namespace Machines

structure GrowVec (α : Type u) where
  elems : List α
  capacity : Nat
  fits : elems.length ≤ capacity

namespace GrowVec

def empty : GrowVec α := ⟨[], 0, Nat.le_refl 0⟩

def clear (v : GrowVec α) : GrowVec α := ⟨[], v.capacity, Nat.zero_le _⟩

/-- Full storage is doubled, and the elements are moved over. -/
def push_back (move : α → α) (v : GrowVec α) (x : α) : GrowVec α :=
  if h : v.elems.length < v.capacity then ⟨v.elems ++ [move x], v.capacity, by simpa using Nat.succ_le_of_lt h⟩
  else
    have fits : (v.elems.map move ++ [move x]).length ≤ v.elems.length + max v.elems.length 1 := by
      simp only [List.length_append, List.length_map]
      exact Nat.add_le_add_left (Nat.le_max_right ..) _
    ⟨v.elems.map move ++ [move x], v.elems.length + max v.elems.length 1, fits⟩

def Settled (move : α → α) (v : GrowVec α) : Prop := ∀ x ∈ v.elems, move x = x

section

variable {move : α → α} {v : GrowVec α}

theorem elems_push_back (hv : v.Settled move) (x : α) : (v.push_back move x).elems = v.elems ++ [move x] := by
  have hmap : v.elems.map move = v.elems.map id := List.map_congr_left hv
  unfold push_back
  split
  · rfl
  · simp only [hmap, List.map_id]

end

end GrowVec

end Machines
