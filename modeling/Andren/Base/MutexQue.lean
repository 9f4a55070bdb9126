import Andren.Machine.Channel

/-!
# The double-buffered queue

`MutexQue` and `MutexQueAlloc` keep two buffers. Producers append to `tail`
under the mutex; the one consumer tests and empties `front` without it and
takes the mutex only to swap the buffers. A take is therefore several steps,
and producers may step between any two of them.

`takeStep_inl` and `takeStep_inr` say what one step of a take does to the
contents `front ++ tail`; with them both classes refine a channel.
-/

namespace Andren.Base

open Machines

structure MutexQue (T : Type) where
  front : List T
  tail : List T

namespace MutexQue

def empty : MutexQue T := ⟨[], []⟩

def pushBack (q : MutexQue T) (t : T) : MutexQue T := { q with tail := q.tail ++ [t] }

def swap (q : MutexQue T) : MutexQue T := ⟨q.tail, q.front⟩

def contents (q : MutexQue T) : List T := q.front ++ q.tail

@[simp] theorem contents_empty : (empty : MutexQue T).contents = [] := rfl

@[simp] theorem front_pushBack (q : MutexQue T) (t : T) : (q.pushBack t).front = q.front := rfl

@[simp] theorem contents_pushBack (q : MutexQue T) (t : T) :
    (q.pushBack t).contents = q.contents ++ [t] := by
  simp [pushBack, contents]

end MutexQue

-- ---------------------------------------------------------------------------
-- One take, step by step
-- ---------------------------------------------------------------------------

/-- Which take is running: `takeOne` or `takeMulti`, each with an empty `res`. -/
inductive Take
  | one
  | multi
  deriving DecidableEq, Repr

inductive TakePc
  | test
  | swap
  | retest
  | remove
  deriving DecidableEq, Repr

/-- The end of a take whose `front` is known to hold something. `takeOne` moves
the first element out and pops it; `takeMulti` moves the whole buffer, and a
moved-from deque is empty. `front()` of an empty deque is undefined: no step. -/
def MutexQue.remove (q : MutexQue T) : Take → Option (MutexQue T × List T)
  | .one => match q.front with
    | [] => none
    | t :: rest => some ({ q with front := rest }, [t])
  | .multi => some ({ q with front := [] }, q.front)

/-- One step of a take: either the take goes on at another step, or it returns
with what it put into `res`. -/
def MutexQue.takeStep (k : Take) (q : MutexQue T) : TakePc → Option (MutexQue T × (TakePc ⊕ List T))
  | .test => some (q, .inl (if q.front.isEmpty then .swap else .remove))
  | .swap => some (q.swap, .inl .retest)
  | .retest => some (q, if q.front.isEmpty then .inr [] else .inl .remove)
  | .remove => (q.remove k).map fun (q', res) => (q', .inr res)

/-- What the take knows of `front`. Only the consumer changes `front`, so no
producer can make it false. -/
def TakeOk (q : MutexQue T) : TakePc → Prop
  | .test | .retest => True
  | .swap => q.front = []
  | .remove => q.front ≠ []

theorem TakeOk.pushBack {q : MutexQue T} (h : TakeOk q pc) (t : T) : TakeOk (q.pushBack t) pc := by
  cases pc <;> exact h

theorem MutexQue.contents_swap {q : MutexQue T} (h : q.front = []) :
    q.swap.contents = q.contents := by
  simp [MutexQue.swap, MutexQue.contents, h]

theorem MutexQue.contents_remove {q : MutexQue T} (h : q.remove k = some (q', res)) :
    q.contents = res ++ q'.contents := by
  cases k with
  | one =>
    simp only [remove] at h
    split at h
    · cases h
    · rename_i t rest hq
      simp only [Option.some.injEq, Prod.mk.injEq] at h
      obtain ⟨rfl, rfl⟩ := h
      simp [contents, hq]
  | multi =>
    simp only [remove, Option.some.injEq, Prod.mk.injEq] at h
    obtain ⟨rfl, rfl⟩ := h
    simp [contents]

theorem takeStep_inl {q q' : MutexQue T} (hok : TakeOk q pc) (h : q.takeStep k pc = some (q', .inl pc')) :
    TakeOk q' pc' ∧ q'.contents = q.contents := by
  cases pc with
  | test =>
    simp only [MutexQue.takeStep, Option.some.injEq, Prod.mk.injEq, Sum.inl.injEq] at h
    obtain ⟨rfl, rfl⟩ := h
    by_cases he : q.front = [] <;> simp [he, TakeOk]
  | swap =>
    simp only [MutexQue.takeStep, Option.some.injEq, Prod.mk.injEq, Sum.inl.injEq] at h
    obtain ⟨rfl, rfl⟩ := h
    exact ⟨trivial, MutexQue.contents_swap hok⟩
  | retest =>
    simp only [MutexQue.takeStep, Option.some.injEq, Prod.mk.injEq] at h
    obtain ⟨rfl, h⟩ := h
    by_cases he : q.front = []
    · simp [he] at h
    · simp only [List.isEmpty_iff, he, if_false, Sum.inl.injEq] at h
      subst h
      exact ⟨he, rfl⟩
  | remove => simp [MutexQue.takeStep] at h

theorem takeStep_inr {q q' : MutexQue T} (h : q.takeStep k pc = some (q', .inr res)) :
    q.contents = res ++ q'.contents := by
  cases pc with
  | test => simp [MutexQue.takeStep] at h
  | swap => simp [MutexQue.takeStep] at h
  | retest =>
    simp only [MutexQue.takeStep, Option.some.injEq, Prod.mk.injEq] at h
    obtain ⟨rfl, h⟩ := h
    by_cases he : q.front = []
    · simp only [List.isEmpty_iff, he, if_true, Sum.inr.injEq] at h
      subst h
      rfl
    · simp [he] at h
  | remove =>
    simp only [MutexQue.takeStep, Option.map_eq_some_iff, Prod.mk.injEq, Sum.inr.injEq] at h
    obtain ⟨⟨q₁, res₁⟩, hr, rfl, rfl⟩ := h
    exact MutexQue.contents_remove hr

-- ---------------------------------------------------------------------------
-- The classes under concurrency
-- ---------------------------------------------------------------------------

structure MutexQueAlloc (T A : Type) extends MutexQue T where
  memalloc : A

structure Holder (Q T : Type) where
  get : Q → MutexQue T
  set : Q → MutexQue T → Q
  get_set : ∀ q b, get (set q b) = b

structure Shared (Q : Type) where
  que : Q
  taking : Option (Take × TakePc)

inductive QueAct (T : Type)
  /-- `producer` runs `pushBack(t)`, which the mutex makes one step. -/
  | pushBack (producer : Nat) (t : T)
  | call (k : Take)
  | step

inductive QueEv (T : Type)
  | pushed (producer : Nat) (t : T)
  | took (res : List T)

/-- Any number of producers and one consumer on a queue. -/
def sharedQue (B : Holder Q T) (q₀ : Q) : Machine (Shared Q) (QueAct T) (QueEv T) where
  init := ⟨q₀, none⟩
  step s
    | .pushBack p t => some ({ s with que := B.set s.que ((B.get s.que).pushBack t) }, [.pushed p t])
    | .call k => match s.taking with
      | some _ => none
      | none => some ({ s with taking := some (k, .test) }, [])
    | .step => do
      let (k, pc) ← s.taking
      match ← (B.get s.que).takeStep k pc with
      | (q, .inl pc') => pure (⟨B.set s.que q, some (k, pc')⟩, [])
      | (q, .inr res) => pure (⟨B.set s.que q, none⟩, [.took res])

def pushed : List (QueEv T) → List T
  | [] => []
  | .pushed _ t :: tr => t :: pushed tr
  | .took _ :: tr => pushed tr

def delivered : List (QueEv T) → List T
  | [] => []
  | .pushed .. :: tr => delivered tr
  | .took res :: tr => res ++ delivered tr

def QueEv.obs : QueEv T → List (ChanEv Unit T)
  | .pushed _ t => [.put () t]
  | .took res => res.map (.got ())

theorem puts_obs (tr : List (QueEv T)) : puts () (tr.flatMap QueEv.obs) = pushed tr := by
  induction tr with
  | nil => rfl
  | cons e tr ih => cases e <;> simp [QueEv.obs, pushed, puts, ih]

theorem gots_obs (tr : List (QueEv T)) : gots () (tr.flatMap QueEv.obs) = delivered tr := by
  induction tr with
  | nil => rfl
  | cons e tr ih => cases e <;> simp [QueEv.obs, delivered, gots, gots_map_got, ih]

def SharedOk (B : Holder Q T) (s : Shared Q) : Prop :=
  ∀ k pc, s.taking = some (k, pc) → TakeOk (B.get s.que) pc

def sharedQue_refines (B : Holder Q T) (q₀ : Q) (h₀ : (B.get q₀).contents = []) :
    Refinement (sharedQue B q₀) (channels Unit T) Machine.anyStep where
  obs := QueEv.obs
  abs s := fun _ => (B.get s.que).contents
  inv := SharedOk B
  init_inv := by intro k pc h; cases h
  init_abs := funext fun _ => h₀
  step_inv := by
    intro s a s' es hi _ hs
    cases a with
    | pushBack p t =>
      simp only [sharedQue, Option.some.injEq, Prod.mk.injEq] at hs
      obtain ⟨rfl, -⟩ := hs
      intro k pc hk
      simpa only [B.get_set] using (hi k pc hk).pushBack t
    | call k =>
      simp only [sharedQue] at hs
      split at hs
      · cases hs
      · cases hs
        intro k' pc hk
        cases hk
        trivial
    | step =>
      simp only [sharedQue, Option.bind_eq_bind, Option.bind_eq_some_iff] at hs
      obtain ⟨⟨k, pc⟩, hk, ⟨q, next⟩, ht, hs⟩ := hs
      cases next with
      | inl pc' =>
        cases hs
        intro k' pc'' hk'
        cases hk'
        simpa only [B.get_set] using (takeStep_inl (hi k pc hk) ht).1
      | inr res =>
        cases hs
        intro k' pc' hk'
        cases hk'
  step_abs := by
    intro s a s' es hi _ hs
    cases a with
    | pushBack p t =>
      simp only [sharedQue, Option.some.injEq, Prod.mk.injEq] at hs
      obtain ⟨rfl, rfl⟩ := hs
      simp only [B.get_set, MutexQue.contents_pushBack]
      exact channel_put _ t
    | call k =>
      simp only [sharedQue] at hs
      split at hs
      · cases hs
      · cases hs
        exact .refl
    | step =>
      simp only [sharedQue, Option.bind_eq_bind, Option.bind_eq_some_iff] at hs
      obtain ⟨⟨k, pc⟩, hk, ⟨q, next⟩, ht, hs⟩ := hs
      cases next with
      | inl pc' =>
        cases hs
        simp only [B.get_set, (takeStep_inl (hi k pc hk) ht).2]
        exact .refl
      | inr res =>
        cases hs
        simp only [B.get_set, List.flatMap_singleton]
        exact channel_gets (takeStep_inr ht)

theorem sharedQue_fifo (B : Holder Q T) (h₀ : (B.get q₀).contents = [])
    (h : (sharedQue B q₀).Run tr s) : pushed tr = delivered tr ++ (B.get s.que).contents := by
  have hfifo := channels_fifo ((sharedQue_refines B q₀ h₀).run h) ()
  rwa [show (sharedQue_refines B q₀ h₀).obs = QueEv.obs from rfl, puts_obs, gots_obs] at hfifo

def MutexQue.shared (T : Type) : Machine (Shared (MutexQue T)) (QueAct T) (QueEv T) :=
  sharedQue ⟨id, fun _ b => b, fun _ _ => rfl⟩ empty

def MutexQueAlloc.shared (T : Type) {A : Type} (memalloc : A) :
    Machine (Shared (MutexQueAlloc T A)) (QueAct T) (QueEv T) :=
  sharedQue ⟨MutexQueAlloc.toMutexQue, fun q b => { q with toMutexQue := b }, fun _ _ => rfl⟩
    ⟨.empty, memalloc⟩

/-- However producers and the steps of the takes interleave, what was delivered
followed by the two buffers is what was pushed. -/
theorem mutexQue_lossless_fifo (T A : Type) :
    (∀ tr s, (MutexQue.shared T).Run tr s →
      delivered tr ++ s.que.front ++ s.que.tail = pushed tr) ∧
    (∀ (memalloc : A) tr s, (MutexQueAlloc.shared T memalloc).Run tr s →
      delivered tr ++ s.que.front ++ s.que.tail = pushed tr) := by
  constructor
  · intro tr s h
    rw [List.append_assoc]
    exact (sharedQue_fifo _ rfl h).symm
  · intro memalloc tr s h
    rw [List.append_assoc]
    exact (sharedQue_fifo _ rfl h).symm

theorem mutexQue_lossless_fifo_run : ∃ tr s, (MutexQue.shared Nat).Run tr s ∧
    delivered tr = [1, 2] ∧ delivered tr ++ s.que.front ++ s.que.tail = [1, 2, 3] := by
  have hr : ((MutexQue.shared Nat).replay ⟨.empty, none⟩
      [.pushBack 0 1, .call .one, .pushBack 1 2, .step, .step, .pushBack 0 3, .step, .step,
        .call .multi, .step, .step]).isSome := rfl
  refine ⟨_, _, Machine.steps_of_replay (Option.some_get hr).symm, rfl, ?_⟩
  rw [(mutexQue_lossless_fifo Nat Unit).1 _ _ (Machine.steps_of_replay (Option.some_get hr).symm)]
  rfl

end Andren.Base
