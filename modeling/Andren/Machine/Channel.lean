import Andren.Machine.Basic
import Mathlib.Data.List.Basic

/-!
# First-in-first-out channels

The abstract machine of a family of unbounded channels, one for each key: `put`
appends to a channel, `get` removes its head. In every run what was put into a
channel is what was got from it followed by what it holds (`channels_fifo`).
-/

namespace Machines

inductive ChanAct (κ : Type u) (α : Type v)
  | put (k : κ) (x : α)
  | get (k : κ)

inductive ChanEv (κ : Type u) (α : Type v)
  | put (k : κ) (x : α)
  | got (k : κ) (x : α)
  deriving DecidableEq

variable {κ : Type u} {α : Type v} [DecidableEq κ]

/-- One list for each key, empty at the start. -/
def channels (κ : Type u) (α : Type v) [DecidableEq κ] :
    Machine (κ → List α) (ChanAct κ α) (ChanEv κ α) where
  init := fun _ => []
  step
    | q, .put k x => some (Function.update q k (q k ++ [x]), [.put k x])
    | q, .get k => match q k with
      | [] => none
      | x :: rest => some (Function.update q k rest, [.got k x])

def puts (k : κ) : List (ChanEv κ α) → List α
  | [] => []
  | .put k' x :: tr => if k' = k then x :: puts k tr else puts k tr
  | .got .. :: tr => puts k tr

def gots (k : κ) : List (ChanEv κ α) → List α
  | [] => []
  | .put .. :: tr => gots k tr
  | .got k' x :: tr => if k' = k then x :: gots k tr else gots k tr

@[simp] theorem puts_append (k : κ) (tr tr' : List (ChanEv κ α)) :
    puts k (tr ++ tr') = puts k tr ++ puts k tr' := by
  induction tr with
  | nil => rfl
  | cons e tr ih => cases e <;> simp only [List.cons_append, puts, ih]; split <;> rfl

@[simp] theorem gots_append (k : κ) (tr tr' : List (ChanEv κ α)) :
    gots k (tr ++ tr') = gots k tr ++ gots k tr' := by
  induction tr with
  | nil => rfl
  | cons e tr ih => cases e <;> simp only [List.cons_append, gots, ih]; split <;> rfl

@[simp] theorem puts_map_got (k k' : κ) (xs : List α) : puts k (xs.map (.got k')) = [] := by
  induction xs with
  | nil => rfl
  | cons x xs ih => exact ih

theorem gots_map_got (k k' : κ) (xs : List α) :
    gots k (xs.map (.got k')) = if k' = k then xs else [] := by
  induction xs with
  | nil => simp [gots]
  | cons x xs ih =>
    simp only [List.map_cons, gots, ih]
    split <;> rfl

/-- What a channel holds and what is put into it comes out first, in order. -/
theorem channels_conserve (h : (channels κ α).Steps ok q tr q') (k : κ) :
    q k ++ puts k tr = gots k tr ++ q' k := by
  refine h.invariant (I := fun tr q' => q k ++ puts k tr = gots k tr ++ q' k) (List.append_nil _) ?_
  intro tr q' a q'' es _ ih _ hs
  rw [puts_append, gots_append, ← List.append_assoc, ih]
  cases a with
  | put k' x =>
    simp only [channels, Option.some.injEq, Prod.mk.injEq] at hs
    obtain ⟨rfl, rfl⟩ := hs
    by_cases hk : k' = k
    · subst hk; simp [puts, gots]
    · simp [hk, Function.update_of_ne (Ne.symm hk), puts, gots]
  | get k' =>
    simp only [channels] at hs
    split at hs
    · cases hs
    · rename_i x rest hq
      simp only [Option.some.injEq, Prod.mk.injEq] at hs
      obtain ⟨rfl, rfl⟩ := hs
      by_cases hk : k' = k
      · subst hk; simp [hq, puts, gots]
      · simp [hk, Function.update_of_ne (Ne.symm hk), puts, gots]

/-- Nothing is lost, duplicated or reordered in any channel. -/
theorem channels_fifo (h : (channels κ α).Run tr q) (k : κ) :
    puts k tr = gots k tr ++ q k := channels_conserve h k

theorem channels_put (q : κ → List α) (k : κ) (x : α) :
    (channels κ α).Steps Machine.anyStep q [.put k x] (Function.update q k (q k ++ [x])) :=
  .one (a := .put k x) trivial rfl

theorem channels_gets (hq : q k = xs ++ rest) :
    (channels κ α).Steps Machine.anyStep q (xs.map (.got k)) (Function.update q k rest) := by
  induction xs generalizing q with
  | nil =>
    have : Function.update q k rest = q := by rw [← Function.update_eq_self k q, hq]; simp
    rw [this]
    exact .refl
  | cons x xs ih =>
    have hstep : (channels κ α).step q (.get k) =
        some (Function.update q k (xs ++ rest), [.got k x]) := by
      simp [channels, hq]
    have htail := ih (q := Function.update q k (xs ++ rest)) (by simp)
    rw [Function.update_idem] at htail
    exact (Machine.Steps.one trivial hstep).trans htail

-- ---------------------------------------------------------------------------
-- A single channel
-- ---------------------------------------------------------------------------

theorem channel_put (q : List α) (x : α) :
    (channels Unit α).Steps Machine.anyStep (fun _ => q) [.put () x] fun _ => q ++ [x] := by
  have h := channels_put (fun _ : Unit => q) () x
  rwa [Function.update_eq_const_of_subsingleton] at h

theorem channel_gets {q : List α} (hq : q = xs ++ rest) :
    (channels Unit α).Steps Machine.anyStep (fun _ => q) (xs.map (.got ())) fun _ => rest := by
  have h := channels_gets (q := fun _ : Unit => q) (k := ()) hq
  rwa [Function.update_eq_const_of_subsingleton] at h

end Machines
