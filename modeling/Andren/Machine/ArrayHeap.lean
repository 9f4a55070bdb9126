import Mathlib.Data.List.Basic
import Mathlib.Logic.Equiv.Basic
import Mathlib.Order.Defs.Unbundled

/-!
# Heaps in arrays

An array read as a tree: `parent` and `children` say which positions are
neighbours. `siftUp` and `siftDown` exchange elements along a path, so that
`push` adds one element to those stored and `extract` takes one away.

A heap is `Ordered` when no element is before its parent. A sift starts where
only one position may be out of order (`UpOrder`, `DownOrder`) and ends in an
ordered heap, when the order is a strict weak order.
-/

namespace Heaps

variable {α : Type u}

def less (lt : α → α → Bool) (xs : Array α) (i j : Nat) : Bool :=
  match xs[i]?, xs[j]? with
  | some a, some b => lt a b
  | _, _ => false

/-- Each round moves to a smaller position: `i` rounds are enough. -/
def siftUp (lt : α → α → Bool) (parent : Nat → Nat) : Nat → Array α → Nat → Array α
  | 0, xs, _ => xs
  | fuel + 1, xs, i =>
    if 0 < i ∧ less lt xs i (parent i) then
      siftUp lt parent fuel (xs.swapIfInBounds i (parent i)) (parent i)
    else xs

def pick (lt : α → α → Bool) (xs : Array α) (i : Nat) (children : List Nat) : Nat :=
  children.foldl (fun mi ci => if ci < xs.size ∧ less lt xs ci mi then ci else mi) i

/-- Each round moves to a greater position: `xs.size` rounds are enough. -/
def siftDown (lt : α → α → Bool) (children : Nat → List Nat) : Nat → Array α → Nat → Array α
  | 0, xs, _ => xs
  | fuel + 1, xs, i =>
    let mi := pick lt xs i (children i)
    if i ≠ mi then siftDown lt children fuel (xs.swapIfInBounds i mi) mi else xs

def push (lt : α → α → Bool) (parent : Nat → Nat) (xs : Array α) (x : α) : Array α :=
  siftUp lt parent xs.size (xs.push x) xs.size

def extract (lt : α → α → Bool) (children : Nat → List Nat) (xs : Array α) : Array α × Option α :=
  match xs[0]?, xs.back? with
  | some ret, some last =>
    let ys := xs.pop
    (if 0 < ys.size then siftDown lt children ys.size (ys.setIfInBounds 0 last) 0 else ys, some ret)
  | _, _ => (xs, none)

theorem perm_swapIfInBounds (xs : Array α) (i j : Nat) : (xs.swapIfInBounds i j).toList.Perm xs.toList := by
  rw [Array.swapIfInBounds_def]
  split
  · split
    · exact (Array.swap_perm _ _).toList
    · exact .refl _
  · exact .refl _

theorem perm_siftUp (lt : α → α → Bool) (parent : Nat → Nat) (fuel : Nat) (xs : Array α) (i : Nat) :
    (siftUp lt parent fuel xs i).toList.Perm xs.toList := by
  induction fuel generalizing xs i with
  | zero => exact .refl _
  | succ fuel ih =>
    rw [siftUp]
    split
    · exact (ih _ _).trans (perm_swapIfInBounds xs i (parent i))
    · exact .refl _

theorem perm_siftDown (lt : α → α → Bool) (children : Nat → List Nat) (fuel : Nat) (xs : Array α) (i : Nat) :
    (siftDown lt children fuel xs i).toList.Perm xs.toList := by
  induction fuel generalizing xs i with
  | zero => exact .refl _
  | succ fuel ih =>
    rw [siftDown]
    split
    · exact (ih _ _).trans (perm_swapIfInBounds xs i _)
    · exact .refl _

theorem perm_push (lt : α → α → Bool) (parent : Nat → Nat) (xs : Array α) (x : α) :
    (push lt parent xs x).toList.Perm (x :: xs.toList) := by
  refine (perm_siftUp lt parent _ _ _).trans ?_
  rw [Array.toList_push]
  exact List.perm_append_singleton x xs.toList

theorem extract_eq_none {lt : α → α → Bool} {children : Nat → List Nat} (xs : Array α) :
    (extract lt children xs).2 = none ↔ xs.size = 0 := by
  unfold extract
  constructor
  · intro h
    split at h
    · cases h
    · rename_i hno
      refine Nat.eq_zero_of_not_pos fun hpos => ?_
      have hlast : xs.back? = some xs[xs.size - 1] := by
        rw [Array.back?_eq_getElem?]
        exact Array.getElem?_eq_getElem (Nat.sub_one_lt_of_lt hpos)
      exact hno _ _ (Array.getElem?_eq_getElem hpos) hlast
  · intro h
    obtain rfl := Array.eq_empty_of_size_eq_zero h
    rfl

theorem perm_extract {lt : α → α → Bool} {children : Nat → List Nat} {xs ys : Array α} {ret : α}
    (h : extract lt children xs = (ys, some ret)) : xs.toList.Perm (ret :: ys.toList) := by
  unfold extract at h
  split at h
  · rename_i ret' last hret hlast
    obtain ⟨hys, hret'⟩ := Prod.mk.inj h
    cases hret'
    obtain ⟨init, rfl⟩ : ∃ init, xs = Array.push init last := by
      obtain ⟨init, hinit⟩ := Array.back?_eq_some_iff.mp hlast
      exact ⟨init, hinit⟩
    rw [Array.pop_push] at hys
    rcases init with ⟨_ | ⟨a, rest⟩⟩
    · cases hys
      cases hret
      exact .refl _
    · cases hret
      rw [if_pos (show 0 < (Array.mk (a :: rest)).size from Nat.succ_pos _)] at hys
      rw [← hys]
      refine .trans ?_ ((perm_siftDown lt children _ _ _).symm.cons _)
      simp only [Array.toList_push, Array.toList_setIfInBounds, List.set_cons_zero, List.cons_append]
      exact (List.perm_append_singleton last rest).cons a
  · cases h

-- ---------------------------------------------------------------------------
-- The order
-- ---------------------------------------------------------------------------

/-- `parent` and `children` describe one tree. -/
structure Shape (parent : Nat → Nat) (children : Nat → List Nat) : Prop where
  parent_lt : ∀ i, 0 < i → parent i < i
  mem_children : ∀ i j, j ∈ children i ↔ 0 < j ∧ parent j = i

def Ordered (lt : α → α → Bool) (parent : Nat → Nat) (xs : Array α) : Prop :=
  ∀ i, 0 < i → less lt xs i (parent i) = false

theorem not_before_trans {r : α → α → Prop} [IsStrictWeakOrder α r] (hba : ¬r b a) (hcb : ¬r c b) :
    ¬r c a := by
  intro hca
  have hab : ¬r a b := fun hab => hcb (IsTrans.trans _ _ _ hca hab)
  have hbc : ¬r b c := fun hbc => hba (IsTrans.trans _ _ _ hbc hca)
  exact (IsStrictWeakOrder.incomp_trans a b c ⟨hab, hba⟩ ⟨hbc, hcb⟩).2 hca

section

variable {lt : α → α → Bool} {xs : Array α}

theorem bounds_of_less (h : less lt xs i j = true) : i < xs.size ∧ j < xs.size := by
  unfold less at h
  split at h
  · rename_i ha hb
    exact ⟨(Array.getElem?_eq_some_iff.mp ha).1, (Array.getElem?_eq_some_iff.mp hb).1⟩
  · cases h

theorem less_of_size_le (h : xs.size ≤ i) : less lt xs i j = false := by
  rw [Bool.eq_false_iff]
  intro hless
  exact Nat.not_lt.mpr h (bounds_of_less hless).1

theorem less_eq (hi : xs[i]? = some a) (hj : xs[j]? = some b) : less lt xs i j = lt a b := by
  simp [less, hi, hj]

theorem less_of_sub {ys : Array α} (hi : ∀ a, ys[i]? = some a → xs[i]? = some a)
    (hj : ∀ b, ys[j]? = some b → xs[j]? = some b) (h : less lt xs i j = false) :
    less lt ys i j = false := by
  rw [Bool.eq_false_iff]
  intro hless
  obtain ⟨hi', hj'⟩ := bounds_of_less hless
  have ha := Array.getElem?_eq_getElem hi'
  have hb := Array.getElem?_eq_getElem hj'
  rw [less_eq (hi _ ha) (hj _ hb)] at h
  rw [less_eq ha hb, h] at hless
  cases hless

theorem getElem?_swapIfInBounds (hi : i < xs.size) (hj : j < xs.size) (k : Nat) :
    (xs.swapIfInBounds i j)[k]? = xs[Equiv.swap i j k]? := by
  rw [Array.swapIfInBounds_def, dif_pos hi, dif_pos hj, Array.getElem?_swap, Equiv.swap_apply_def]
  rcases eq_or_ne k i with rfl | hki
  · rw [if_pos rfl, if_pos rfl, Array.getElem?_eq_getElem hj]
    split
    · rename_i hjk
      simp [hjk]
    · rfl
  · rw [if_neg hki, if_neg hki.symm]
    rcases eq_or_ne k j with rfl | hkj
    · rw [if_pos rfl, if_pos rfl, Array.getElem?_eq_getElem hi]
    · rw [if_neg hkj, if_neg hkj.symm]

theorem less_swap (hi : i < xs.size) (hj : j < xs.size) (a b : Nat) :
    less lt (xs.swapIfInBounds i j) a b = less lt xs (Equiv.swap i j a) (Equiv.swap i j b) := by
  unfold less
  rw [getElem?_swapIfInBounds hi hj, getElem?_swapIfInBounds hi hj]

variable [IsStrictWeakOrder α fun a b => lt a b]

theorem less_asymm (h : less lt xs i j = true) : less lt xs j i = false := by
  obtain ⟨hi, hj⟩ := bounds_of_less h
  have ha := Array.getElem?_eq_getElem hi
  have hb := Array.getElem?_eq_getElem hj
  rw [less_eq ha hb] at h
  rw [less_eq hb ha, Bool.eq_false_iff]
  intro h'
  have hloop := IsTrans.trans (r := fun a b => (lt a b : Prop)) _ _ _ h h'
  exact Std.Irrefl.irrefl (r := fun a b => (lt a b : Prop)) _ hloop

theorem less_irrefl (xs : Array α) (i : Nat) : less lt xs i i = false := by
  rw [Bool.eq_false_iff]
  intro h
  cases h.symm.trans (less_asymm h)

theorem less_trans (hj : j < xs.size) (hji : less lt xs j i = false) (hkj : less lt xs k j = false) :
    less lt xs k i = false := by
  rw [Bool.eq_false_iff]
  intro hki
  obtain ⟨hk, hi⟩ := bounds_of_less hki
  have ha := Array.getElem?_eq_getElem hi
  have hb := Array.getElem?_eq_getElem hj
  have hc := Array.getElem?_eq_getElem hk
  rw [less_eq hb ha, Bool.eq_false_iff] at hji
  rw [less_eq hc hb, Bool.eq_false_iff] at hkj
  rw [less_eq hc ha] at hki
  exact not_before_trans (r := fun a b => (lt a b : Prop)) hji hkj hki

end

-- ---------------------------------------------------------------------------
-- Sifting up
-- ---------------------------------------------------------------------------

section

variable {lt : α → α → Bool} {parent : Nat → Nat} {children : Nat → List Nat} {xs : Array α}

/-- Only `i` may be before its parent; its children are not. -/
structure UpOrder (lt : α → α → Bool) (parent : Nat → Nat) (xs : Array α) (i : Nat) : Prop where
  except : ∀ j, 0 < j → j ≠ i → less lt xs j (parent j) = false
  grand : 0 < i → ∀ j, 0 < j → parent j = i → less lt xs j (parent i) = false

theorem UpOrder.swap [IsStrictWeakOrder α fun a b => lt a b] (hshape : Shape parent children)
    (h : UpOrder lt parent xs i) (hi : 0 < i) (hless : less lt xs i (parent i) = true) :
    UpOrder lt parent (xs.swapIfInBounds i (parent i)) (parent i) := by
  obtain ⟨hsize, hsize'⟩ := bounds_of_less hless
  have hpi := hshape.parent_lt i hi
  have hback := less_asymm hless
  refine ⟨?_, ?_⟩
  · intro j hj hjp
    rw [less_swap hsize hsize']
    rcases eq_or_ne j i with rfl | hji
    · rwa [Equiv.swap_apply_left, Equiv.swap_apply_right]
    · rw [Equiv.swap_apply_of_ne_of_ne hji hjp]
      rcases eq_or_ne (parent j) i with hpar | hpar
      · rw [hpar, Equiv.swap_apply_left]
        exact h.grand hi j hj hpar
      · have hold := h.except j hj hji
        rcases eq_or_ne (parent j) (parent i) with hpar' | hpar'
        · rw [hpar', Equiv.swap_apply_right]
          exact less_trans hsize' hback (hpar' ▸ hold)
        · rwa [Equiv.swap_apply_of_ne_of_ne hpar hpar']
  · intro hp j hj hpar
    have hpp := hshape.parent_lt _ hp
    have hup := h.except _ hp (Nat.ne_of_lt hpi)
    rw [less_swap hsize hsize', Equiv.swap_apply_of_ne_of_ne (x := parent (parent i)) (by omega) (by omega)]
    rcases eq_or_ne j i with rfl | hji
    · rwa [Equiv.swap_apply_left]
    · have hjp : j ≠ parent i := by
        have := hshape.parent_lt j hj
        omega
      rw [Equiv.swap_apply_of_ne_of_ne hji hjp]
      exact less_trans hsize' hup (hpar ▸ h.except j hj hji)

theorem ordered_siftUp [IsStrictWeakOrder α fun a b => lt a b] (hshape : Shape parent children)
    (hfuel : i ≤ fuel) (h : UpOrder lt parent xs i) : Ordered lt parent (siftUp lt parent fuel xs i) := by
  induction fuel generalizing xs i with
  | zero =>
    obtain rfl := Nat.le_zero.mp hfuel
    exact fun j hj => h.except j hj (Nat.ne_of_gt hj)
  | succ fuel ih =>
    rw [siftUp]
    split
    · rename_i hup
      have hlt := hshape.parent_lt i hup.1
      exact ih (by omega) (h.swap hshape hup.1 hup.2)
    · rename_i hstop
      intro j hj
      rcases eq_or_ne j i with rfl | hji
      · simpa [hj] using hstop
      · exact h.except j hj hji

-- ---------------------------------------------------------------------------
-- Sifting down
-- ---------------------------------------------------------------------------

structure DownOrder (lt : α → α → Bool) (parent : Nat → Nat) (xs : Array α) (i : Nat) : Prop where
  except : ∀ j, 0 < j → parent j ≠ i → less lt xs j (parent j) = false
  grand : 0 < i → ∀ j, 0 < j → parent j = i → less lt xs j (parent i) = false

theorem pick_cons (lt : α → α → Bool) (xs : Array α) (i c : Nat) (cs : List Nat) :
    pick lt xs i (c :: cs) = pick lt xs (if c < xs.size ∧ less lt xs c i then c else i) cs := rfl

theorem pick_least [IsStrictWeakOrder α fun a b => lt a b] (hi : i < xs.size) (cs : List Nat) :
    (pick lt xs i cs = i ∨ pick lt xs i cs ∈ cs ∧ less lt xs (pick lt xs i cs) i = true) ∧
      less lt xs i (pick lt xs i cs) = false ∧ ∀ c ∈ cs, less lt xs c (pick lt xs i cs) = false := by
  induction cs generalizing i with
  | nil => exact ⟨.inl rfl, less_irrefl xs i, nofun⟩
  | cons c cs ih =>
    rw [pick_cons]
    split
    · rename_i hc
      obtain ⟨hmem, hstart, hall⟩ := ih hc.1
      have hback : less lt xs i (pick lt xs c cs) = false := less_trans hc.1 hstart (less_asymm hc.2)
      refine ⟨.inr ?_, hback, ?_⟩
      · rcases hmem with heq | ⟨hmem, hless⟩
        · rw [heq]
          exact ⟨.head _, hc.2⟩
        · refine ⟨.tail _ hmem, ?_⟩
          rw [← Bool.not_eq_false]
          intro hnot
          have hno := less_trans (bounds_of_less hless).1 hnot (less_asymm hless)
          cases hno.symm.trans hc.2
      · rintro c' (_ | ⟨_, hc'⟩)
        · exact hstart
        · exact hall c' hc'
    · rename_i hc
      obtain ⟨hmem, hstart, hall⟩ := ih hi
      have hci : less lt xs c i = false := by
        rw [Bool.eq_false_iff]
        exact fun hless => hc ⟨(bounds_of_less hless).1, hless⟩
      refine ⟨hmem.imp_right fun h => ⟨.tail _ h.1, h.2⟩, hstart, ?_⟩
      rintro c' (_ | ⟨_, hc'⟩)
      · exact less_trans hi hstart hci
      · exact hall c' hc'

theorem DownOrder.swap [IsStrictWeakOrder α fun a b => lt a b] (hshape : Shape parent children)
    (h : DownOrder lt parent xs i) (hm : m ∈ children i) (hless : less lt xs m i = true)
    (hleast : ∀ c ∈ children i, less lt xs c m = false) :
    DownOrder lt parent (xs.swapIfInBounds i m) m := by
  obtain ⟨hsize, hsize'⟩ := bounds_of_less hless
  obtain ⟨hm0, hmp⟩ := (hshape.mem_children i m).mp hm
  have him : i < m := hmp ▸ hshape.parent_lt m hm0
  have hback := less_asymm hless
  refine ⟨?_, ?_⟩
  · intro j hj hjm
    have hpj := hshape.parent_lt j hj
    rw [less_swap hsize' hsize]
    rcases eq_or_ne j i with rfl | hji
    · rw [Equiv.swap_apply_left, Equiv.swap_apply_of_ne_of_ne (Nat.ne_of_lt hpj) (by omega)]
      exact h.grand hj m hm0 hmp
    · rcases eq_or_ne j m with rfl | hjm'
      · rwa [Equiv.swap_apply_right, hmp, Equiv.swap_apply_left]
      · rw [Equiv.swap_apply_of_ne_of_ne hji hjm']
        rcases eq_or_ne (parent j) i with hpar | hpar
        · rw [hpar, Equiv.swap_apply_left]
          exact hleast j ((hshape.mem_children i j).mpr ⟨hj, hpar⟩)
        · rw [Equiv.swap_apply_of_ne_of_ne hpar hjm]
          exact h.except j hj hpar
  · intro _ j hj hpar
    have hmj : m < j := hpar ▸ hshape.parent_lt j hj
    rw [less_swap hsize' hsize, hmp, Equiv.swap_apply_left,
      Equiv.swap_apply_of_ne_of_ne (x := j) (by omega) (by omega), ← hpar]
    exact h.except j hj (by omega)

theorem ordered_siftDown [IsStrictWeakOrder α fun a b => lt a b] (hshape : Shape parent children)
    (hi : i < xs.size) (hfuel : xs.size ≤ fuel + i) (h : DownOrder lt parent xs i) :
    Ordered lt parent (siftDown lt children fuel xs i) := by
  induction fuel generalizing xs i with
  | zero => omega
  | succ fuel ih =>
    obtain ⟨hmem, -, hleast⟩ : (pick lt xs i (children i) = i ∨ _) ∧ _ := pick_least hi (children i)
    rw [siftDown]
    split
    · rename_i hne
      obtain ⟨hmem, hless⟩ := hmem.resolve_left (Ne.symm hne)
      obtain ⟨hm0, hmp⟩ := (hshape.mem_children i _).mp hmem
      have hlt := hshape.parent_lt _ hm0
      have hsize := (bounds_of_less hless).1
      refine ih ?_ ?_ (h.swap hshape hmem hless hleast)
      · rwa [Array.size_swapIfInBounds]
      · rw [Array.size_swapIfInBounds]
        omega
    · rename_i heq
      rw [not_not] at heq
      intro j hj
      rcases eq_or_ne (parent j) i with hpar | hpar
      · rw [hpar]
        have hno := hleast j ((hshape.mem_children i j).mpr ⟨hj, hpar⟩)
        rwa [← heq] at hno
      · exact h.except j hj hpar

-- ---------------------------------------------------------------------------
-- The operations
-- ---------------------------------------------------------------------------

theorem ordered_empty (lt : α → α → Bool) (parent : Nat → Nat) : Ordered lt parent #[] :=
  fun _ _ => less_of_size_le (Nat.zero_le _)

theorem ordered_push [IsStrictWeakOrder α fun a b => lt a b] (hshape : Shape parent children)
    (h : Ordered lt parent xs) (x : α) : Ordered lt parent (push lt parent xs x) := by
  refine ordered_siftUp hshape (Nat.le_refl _) ⟨?_, ?_⟩
  · intro j hj hne
    rcases Nat.lt_or_gt_of_ne hne with hlt | hgt
    · have hpj := hshape.parent_lt j hj
      refine less_of_sub ?_ ?_ (h j hj)
      · intro a ha
        rwa [Array.getElem?_push_lt hlt, ← Array.getElem?_eq_getElem hlt] at ha
      · intro b hb
        have hlt' := Nat.lt_trans hpj hlt
        rwa [Array.getElem?_push_lt hlt', ← Array.getElem?_eq_getElem hlt'] at hb
    · exact less_of_size_le (by rwa [Array.size_push])
  · intro _ j hj hpar
    have hpj := hshape.parent_lt j hj
    exact less_of_size_le (by rw [Array.size_push]; omega)

theorem ordered_extract [IsStrictWeakOrder α fun a b => lt a b] (hshape : Shape parent children)
    (h : Ordered lt parent xs) : Ordered lt parent (extract lt children xs).1 := by
  unfold extract
  split
  · rename_i ret last hret hlast
    have hpop (i : Nat) (a : α) (ha : xs.pop[i]? = some a) : xs[i]? = some a := by
      rw [Array.getElem?_pop] at ha
      exact (Option.ite_none_right_eq_some.mp ha).2
    simp only
    split
    · rename_i hpos
      refine ordered_siftDown hshape (by rwa [Array.size_setIfInBounds]) (by simp) ⟨?_, nofun⟩
      intro j hj hne
      refine less_of_sub ?_ ?_ (h j hj)
      · intro a ha
        rw [Array.getElem?_setIfInBounds_ne (Nat.ne_of_lt hj)] at ha
        exact hpop j a ha
      · intro b hb
        rw [Array.getElem?_setIfInBounds_ne (Ne.symm hne)] at hb
        exact hpop _ b hb
    · exact fun j hj => less_of_sub (hpop j) (hpop _) (h j hj)
  · exact h

theorem Ordered.root [IsStrictWeakOrder α fun a b => lt a b] (hshape : Shape parent children)
    (h : Ordered lt parent xs) (i : Nat) : less lt xs i 0 = false := by
  induction i using Nat.strongRecOn with
  | ind i ih =>
    rcases Nat.eq_zero_or_pos i with rfl | hi
    · exact less_irrefl xs 0
    · rcases Nat.lt_or_ge i xs.size with hlt | hge
      · have hpi := hshape.parent_lt i hi
        exact less_trans (Nat.lt_trans hpi hlt) (ih _ hpi) (h i hi)
      · exact less_of_size_le hge

theorem Ordered.least [IsStrictWeakOrder α fun a b => lt a b] (hshape : Shape parent children)
    (h : Ordered lt parent xs) (hret : xs[0]? = some ret) (hx : x ∈ xs.toList) : lt x ret = false := by
  obtain ⟨i, hi, hx⟩ := List.mem_iff_getElem.mp hx
  have hi' : xs[i]? = some x := by
    rw [Array.getElem?_eq_getElem (by simpa using hi)]
    exact congrArg some hx
  have hless : less lt xs i 0 = lt x ret := less_eq hi' hret
  rw [← hless]
  exact h.root hshape i

theorem extract_snd (xs : Array α) : (extract lt children xs).2 = xs[0]? := by
  rcases Nat.eq_zero_or_pos xs.size with hsize | hsize
  · rw [(extract_eq_none xs).mpr hsize, Array.getElem?_eq_none (Nat.le_of_eq hsize)]
  · have hlast : xs.back? = some xs[xs.size - 1] := by
      rw [Array.back?_eq_getElem?]
      exact Array.getElem?_eq_getElem (Nat.sub_one_lt_of_lt hsize)
    simp [extract, Array.getElem?_eq_getElem hsize, hlast]

theorem extract_some (hsize : 0 < xs.size) :
    ∃ ys ret, extract lt children xs = (ys, some ret) ∧ xs.toList.Perm (ret :: ys.toList) := by
  have hret : extract lt children xs = ((extract lt children xs).1, some xs[0]) := by
    rw [← Array.getElem?_eq_getElem hsize, ← extract_snd]
  exact ⟨_, _, hret, perm_extract hret⟩

end

end Heaps
