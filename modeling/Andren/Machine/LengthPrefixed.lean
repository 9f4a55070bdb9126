import Mathlib.Data.List.Basic

/-!
# Length-prefixed names

A name is one length byte and that many bytes. At the start of a name in a list
of them stand its length (`getElem?_frames`) and behind it the name
(`slice_frames`).
-/

namespace Machines

def frame (name : List UInt8) : List UInt8 := UInt8.ofNat name.length :: name

def frames (names : List (List UInt8)) : List UInt8 := names.flatMap frame

/-- The length byte holds the length, and the name is not empty. -/
def Framed (name : List UInt8) : Prop := 0 < name.length ∧ name.length < 256

instance (name : List UInt8) : Decidable (Framed name) := inferInstanceAs (Decidable (_ ∧ _))

def slice (input : List UInt8) (p size : Nat) : Option (List UInt8) :=
  if p + size ≤ input.length then some ((input.drop p).take size) else none

@[simp] theorem frames_nil : frames [] = [] := rfl

@[simp] theorem frames_cons (name : List UInt8) (names : List (List UInt8)) :
    frames (name :: names) = frame name ++ frames names := rfl

@[simp] theorem frames_append (names names' : List (List UInt8)) :
    frames (names ++ names') = frames names ++ frames names' := List.flatMap_append

@[simp] theorem length_frame (name : List UInt8) : (frame name).length = name.length + 1 := rfl

theorem frames_eq_nil {names : List (List UInt8)} (h : frames names = []) : names = [] := by
  cases names with
  | nil => rfl
  | cons name names => cases h

theorem Framed.toNat_length {name : List UInt8} (h : Framed name) : (UInt8.ofNat name.length).toNat = name.length :=
  UInt8.toNat_ofNat_of_lt h.2

theorem getElem?_frames (pre : List (List UInt8)) (name : List UInt8) (post : List (List UInt8)) :
    (frames (pre ++ name :: post))[(frames pre).length]? = some (UInt8.ofNat name.length) := by
  simp [frame]

theorem slice_frames (pre : List (List UInt8)) (name : List UInt8) (post : List (List UInt8)) :
    slice (frames (pre ++ name :: post)) ((frames pre).length + 1) name.length = some name := by
  have hdrop : (frames (pre ++ name :: post)).drop ((frames pre).length + 1) = name ++ frames post := by
    simp [frame, List.drop_append]
  have hle : (frames pre).length + 1 + name.length ≤ (frames (pre ++ name :: post)).length := by
    simp
    omega
  rw [slice, if_pos hle, hdrop, List.take_left]

theorem length_slice {input : List UInt8} (h : slice input p size = some key) : key.length = size := by
  obtain ⟨hle, hkey⟩ := Option.ite_none_right_eq_some.mp h
  rw [← Option.some.inj hkey, List.length_take, List.length_drop]
  omega

/-- The names of a list that has nothing else in it, if none is empty. -/
def unframe : Nat → List UInt8 → Option (List (List UInt8))
  | _, [] => some []
  | 0, _ :: _ => none
  | fuel + 1, size :: rest =>
    if 0 < size.toNat ∧ size.toNat ≤ rest.length then
      (unframe fuel (rest.drop size.toNat)).map (rest.take size.toNat :: ·)
    else none

theorem unframe_frames {names : List (List UInt8)} (hshort : ∀ n ∈ names, n.length < 256)
    (hfuel : (frames names).length ≤ fuel) :
    unframe fuel (frames names) = if ∀ n ∈ names, Framed n then some names else none := by
  induction names generalizing fuel with
  | nil => simp [unframe]
  | cons name names ih =>
    have hsize : (UInt8.ofNat name.length).toNat = name.length := UInt8.toNat_ofNat_of_lt (hshort name (.head _))
    rw [frames_cons, List.length_append, length_frame] at hfuel
    obtain ⟨fuel, rfl⟩ := Nat.exists_eq_add_of_lt (Nat.lt_of_lt_of_le (Nat.zero_lt_succ _) (by omega : 1 ≤ fuel))
    rw [frames_cons, frame, List.cons_append, Nat.zero_add, unframe, hsize]
    by_cases hpos : 0 < name.length
    · have hname : Framed name := ⟨hpos, hshort name (.head _)⟩
      have hle : name.length ≤ (name ++ frames names).length := by simp
      rw [if_pos ⟨hpos, hle⟩, List.drop_left, List.take_left, ih (fun n hn => hshort n (.tail _ hn)) (by omega)]
      simp only [List.forall_mem_cons, hname, true_and]
      split <;> rfl
    · have hframed : ¬∀ n ∈ name :: names, Framed n := fun h => hpos (h name (.head _)).1
      rw [if_neg fun h => hpos h.1, if_neg hframed]

end Machines
