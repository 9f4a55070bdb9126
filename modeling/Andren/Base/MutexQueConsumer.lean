import Andren.Base.MutexQue
import Andren.Machine.Trace
import Mathlib.Data.List.Pairwise
import Mathlib.Data.List.Perm.Basic

/-!
# Consumers of the double-buffered queue

Two ways in which a consumer uses what it takes. One passes the same deque to
every `takeMulti` and counts its contents after each; but a take that finds
nothing leaves the deque as it was, so that the batch before is counted again.
The other gives back what it did not process; `appendFromDeque` puts that before
`tail`, and so after what is left in `front`.

The first is right as long as the deque is empty when a take finds nothing
(`takeMulti_batches`), the second as long as `front` is empty when something is
given back (`giveBack_keeps_order`).
-/

namespace Andren.Base

open Machines

-- ---------------------------------------------------------------------------
-- One deque for every take
-- ---------------------------------------------------------------------------

structure Reusing (Q T : Type) where
  que : Q
  taking : Option TakePc
  res : List T

inductive ReuseAct (T : Type)
  | pushBack (producer : Nat) (t : T)
  | takeMulti
  | step

inductive ReuseEv (T : Type)
  | pushed (producer : Nat) (t : T)
  /-- A `takeMulti` returned: the contents of the deque and what the call took
  out of the queue. -/
  | batch (res removed : List T)

/-- The deque after the step that ends a `takeMulti`: the early return leaves
it, the assignment overwrites it. -/
def TakePc.leaves (res removed : List T) : TakePc → List T
  | .retest => res
  | _ => removed

/-- Any number of producers, and a consumer that begins with the deque `res`. -/
def reusedDeque (B : Holder Q T) (q₀ : Q) (res : List T) : Machine (Reusing Q T) (ReuseAct T) (ReuseEv T) where
  init := ⟨q₀, none, res⟩
  step s
    | .pushBack p t => some ({ s with que := B.set s.que ((B.get s.que).pushBack t) }, [.pushed p t])
    | .takeMulti => match s.taking with
      | some _ => none
      | none => some ({ s with taking := some .test }, [])
    | .step => do
      let pc ← s.taking
      match ← (B.get s.que).takeStep .multi pc with
      | (q, .inl pc') => pure ({ s with que := B.set s.que q, taking := some pc' }, [])
      | (q, .inr removed) =>
        let res := pc.leaves s.res removed
        pure (⟨B.set s.que q, none, res⟩, [.batch res removed])

/-- A take that finds nothing finds the deque empty. -/
def EmptyRes (B : Holder Q T) (s : Reusing Q T) : ReuseAct T → Prop
  | .step => s.taking = some .retest → (B.get s.que).front = [] → s.res = []
  | _ => True

def reusePushed : List (ReuseEv T) → List T
  | [] => []
  | .pushed _ t :: tr => t :: reusePushed tr
  | .batch .. :: tr => reusePushed tr

def batches : List (ReuseEv T) → List T
  | [] => []
  | .pushed .. :: tr => batches tr
  | .batch res _ :: tr => res ++ batches tr

section

variable {Q T : Type} {B : Holder Q T} {q₀ : Q} {res₀ : List T}

theorem reusePushed_append (tr tr' : List (ReuseEv T)) :
    reusePushed (tr ++ tr') = reusePushed tr ++ reusePushed tr' := by
  induction tr with
  | nil => rfl
  | cons e tr ih => cases e <;> simp [reusePushed, ih]

theorem batches_append (tr tr' : List (ReuseEv T)) : batches (tr ++ tr') = batches tr ++ batches tr' := by
  induction tr with
  | nil => rfl
  | cons e tr ih => cases e <;> simp [batches, ih]

def takenOut : List (ReuseEv T) → List T
  | [] => []
  | .pushed .. :: tr => takenOut tr
  | .batch _ removed :: tr => removed ++ takenOut tr

theorem takenOut_append (tr tr' : List (ReuseEv T)) : takenOut (tr ++ tr') = takenOut tr ++ takenOut tr' := by
  induction tr with
  | nil => rfl
  | cons e tr ih => cases e <;> simp [takenOut, ih]

/-- The step that ends a call: what it takes out it takes from the front, and
the deque holds that if and only if the call did not find nothing with a deque
that was not empty. -/
theorem batch_of_step {s s' : Reusing Q T}
    (hs : (reusedDeque B q₀ res₀).step s a = some (s', [.batch res removed])) :
    (B.get s.que).contents = removed ++ (B.get s'.que).contents ∧ (res = removed ↔ EmptyRes B s a) := by
  cases a with
  | pushBack p t => cases hs
  | takeMulti =>
    simp only [reusedDeque] at hs
    split at hs <;> cases hs
  | step =>
    simp only [reusedDeque, Option.bind_eq_bind, Option.bind_eq_some_iff] at hs
    obtain ⟨pc, hpc, ⟨q, next⟩, htake, hs⟩ := hs
    cases next with
    | inl pc' => cases hs
    | inr out =>
      cases hs
      refine ⟨by simpa only [B.get_set] using takeStep_inr htake, ?_⟩
      simp only [EmptyRes, hpc, Option.some.injEq]
      cases pc with
      | test | swap => cases htake
      | retest =>
        simp only [MutexQue.takeStep, Option.some.injEq, Prod.mk.injEq] at htake
        obtain ⟨-, htake⟩ := htake
        split at htake
        · rename_i hempty
          cases htake
          exact ⟨fun h _ _ => h, fun h => h rfl (List.isEmpty_iff.mp hempty)⟩
        · cases htake
      | remove => exact iff_of_true rfl fun h => by cases h

structure ReuseOk (B : Holder Q T) (tr : List (ReuseEv T)) (s : Reusing Q T) : Prop where
  taking : ∀ pc, s.taking = some pc → TakeOk (B.get s.que) pc
  fifo : reusePushed tr = takenOut tr ++ (B.get s.que).contents

theorem reusedDeque_step {s s' : Reusing Q T} (h : ReuseOk B tr s)
    (hs : (reusedDeque B q₀ res₀).step s a = some (s', es)) :
    ReuseOk B (tr ++ es) s' ∧ (EmptyRes B s a → batches es = takenOut es) := by
  cases a with
  | pushBack p t =>
    cases hs
    refine ⟨⟨fun pc hpc => ?_, ?_⟩, fun _ => rfl⟩
    · simpa only [B.get_set] using (h.taking pc hpc).pushBack t
    · rw [reusePushed_append, takenOut_append, h.fifo]
      simp [reusePushed, takenOut, B.get_set]
  | takeMulti =>
    simp only [reusedDeque] at hs
    split at hs
    · cases hs
    · cases hs
      rw [List.append_nil]
      refine ⟨⟨fun pc hpc => ?_, h.fifo⟩, fun _ => rfl⟩
      cases hpc
      trivial
  | step =>
    have hstep := hs
    simp only [reusedDeque, Option.bind_eq_bind, Option.bind_eq_some_iff] at hs
    obtain ⟨pc, hpc, ⟨q, next⟩, htake, hs⟩ := hs
    cases next with
    | inl pc' =>
      cases hs
      obtain ⟨hok, hcontents⟩ := takeStep_inl (h.taking pc hpc) htake
      rw [List.append_nil]
      refine ⟨⟨fun pc'' hpc'' => ?_, ?_⟩, fun _ => rfl⟩
      · cases hpc''
        simpa only [B.get_set] using hok
      · rw [h.fifo, ← hcontents, B.get_set]
    | inr removed =>
      cases hs
      obtain ⟨hcontents, hright⟩ := batch_of_step hstep
      refine ⟨⟨fun pc hpc => ?_, ?_⟩, fun hok => ?_⟩
      · cases hpc
      · rw [reusePushed_append, takenOut_append, h.fifo, hcontents]
        simp [reusePushed, takenOut]
      · simp only [batches, takenOut, hright.mpr hok]

theorem reusedDeque_inv (hempty : (B.get q₀).contents = [])
    (h : (reusedDeque B q₀ res₀).RunIf (EmptyRes B) tr s) : ReuseOk B tr s ∧ batches tr = takenOut tr := by
  refine h.invariant (I := fun tr s => ReuseOk B tr s ∧ batches tr = takenOut tr) ?_ ?_
  · refine ⟨⟨?_, hempty.symm⟩, rfl⟩
    rintro pc ⟨⟩
  · rintro tr s a s' es - ⟨hinv, hbatches⟩ hok hs
    obtain ⟨hinv', hes⟩ := reusedDeque_step hinv hs
    exact ⟨hinv', by rw [batches_append, takenOut_append, hbatches, hes hok]⟩

theorem batches_contents (hempty : (B.get q₀).contents = [])
    (h : (reusedDeque B q₀ res₀).RunIf (EmptyRes B) tr s) :
    batches tr ++ (B.get s.que).contents = reusePushed tr := by
  obtain ⟨hinv, hbatches⟩ := reusedDeque_inv hempty h
  rw [hbatches, hinv.fifo]

end

def MutexQue.holder (T : Type) : Holder (MutexQue T) T := ⟨id, fun _ b => b, fun _ b => id_eq b⟩

theorem MutexQueAlloc.toMutexQue_set (q : MutexQueAlloc T A) (b : MutexQue T) :
    { q with toMutexQue := b }.toMutexQue = b := rfl

def MutexQueAlloc.holder (T A : Type) : Holder (MutexQueAlloc T A) T :=
  ⟨MutexQueAlloc.toMutexQue, fun q b => { q with toMutexQue := b }, MutexQueAlloc.toMutexQue_set⟩

/-- When a consumer that reuses one deque gets batches that are what its calls
took out. -/
structure BatchesRight (B : Holder Q T) (q₀ : Q) (res₀ : List T) : Prop where
  /-- If no take finds nothing with a deque that is not empty, each element pushed
  is in one batch or in the queue still. -/
  runs : ∀ tr s, (reusedDeque B q₀ res₀).RunIf (EmptyRes B) tr s →
    batches tr ++ (B.get s.que).front ++ (B.get s.que).tail = reusePushed tr
  /-- A call leaves in the deque what it took out if and only if it is not such a take. -/
  call : ∀ tr s a s' res removed, (reusedDeque B q₀ res₀).Run tr s →
    (reusedDeque B q₀ res₀).step s a = some (s', [.batch res removed]) →
      (B.get s.que).contents = removed ++ (B.get s'.que).contents ∧ (res = removed ↔ EmptyRes B s a)

theorem reusedDeque_right (B : Holder Q T) (q₀ : Q) (res₀ : List T) (hempty : (B.get q₀).contents = []) :
    BatchesRight B q₀ res₀ where
  runs tr s h := by
    rw [List.append_assoc]
    exact batches_contents hempty h
  call tr s a s' res removed _ hs := batch_of_step hs

/-- For both classes, every content of the deque at the start and every
interleaving with the producers. -/
theorem takeMulti_batches (T A : Type) (memalloc : A) (res₀ : List T) :
    BatchesRight (MutexQue.holder T) .empty res₀ ∧ BatchesRight (MutexQueAlloc.holder T A) ⟨.empty, memalloc⟩ res₀ :=
  ⟨reusedDeque_right _ _ _ rfl, reusedDeque_right _ _ _ rfl⟩

instance (B : Holder Q T) (s : Reusing Q T) : (a : ReuseAct T) → Decidable (EmptyRes B s a)
  | .step => inferInstanceAs (Decidable (s.taking = some .retest → (B.get s.que).front = [] → s.res = []))
  | .pushBack .. | .takeMulti => .isTrue trivial

theorem takeMulti_batches_run : ∃ tr s,
    (reusedDeque (MutexQue.holder Nat) .empty []).RunIf (EmptyRes (MutexQue.holder Nat)) tr s ∧
      batches tr = [1, 2, 3] ∧ batches tr ++ s.que.front ++ s.que.tail = [1, 2, 3, 4] := by
  have hr : (((reusedDeque (MutexQue.holder Nat) .empty []).only (EmptyRes (MutexQue.holder Nat))).replay
      ⟨.empty, none, []⟩
      [.takeMulti, .step, .step, .step, .pushBack 0 1, .takeMulti, .step, .pushBack 1 2, .step, .pushBack 0 3, .step,
        .step, .takeMulti, .step, .step, .step, .step, .pushBack 1 4]).isSome := rfl
  have hrun := Machine.steps_of_replay_only (Option.some_get hr).symm
  exact ⟨_, _, hrun, rfl, (takeMulti_batches Nat Unit () []).1.runs _ _ hrun⟩

/-- One element is pushed and taken; the next take finds nothing, and the deque
still holds the element. -/
theorem takeMulti_counts_twice : ∃ tr s, (reusedDeque (MutexQue.holder Nat) .empty []).Run tr s ∧
    reusePushed tr = [1] ∧ batches tr = [1, 1] := by
  have hr : ((reusedDeque (MutexQue.holder Nat) .empty []).replay ⟨.empty, none, []⟩
      [.pushBack 0 1, .takeMulti, .step, .step, .step, .step, .takeMulti, .step, .step, .step]).isSome := rfl
  exact ⟨_, _, Machine.steps_of_replay (Option.some_get hr).symm, rfl, rfl⟩

-- ---------------------------------------------------------------------------
-- Giving back
-- ---------------------------------------------------------------------------

def MutexQue.appendFromDeque (q : MutexQue T) (deq : List T) : MutexQue T := { q with tail := deq ++ q.tail }

abbrev Numbered (T : Type) := Nat × T

/-- A queue and a consumer that holds what it took since it last gave back. -/
structure GivingBack (T : Type) where
  que : MutexQue (Numbered T)
  taking : Option (Take × TakePc)
  held : List (Numbered T)
  processed : List (Numbered T)
  pushes : Nat

inductive GiveAct (T : Type)
  | pushBack (producer : Nat) (t : T)
  | call (k : Take)
  | step
  /-- The elements held that are not `done` are given back in the order taken;
  the others are processed. -/
  | appendFromDeque (done : Numbered T → Bool)

inductive GiveEv (T : Type)
  | pushed (producer : Nat) (x : Numbered T)
  | took (res : List (Numbered T))
  | gaveBack (deq : List (Numbered T))

/-- Any number of producers and one consumer that takes, processes and gives back. -/
def givingBack (T : Type) : Machine (GivingBack T) (GiveAct T) (GiveEv T) where
  init := ⟨.empty, none, [], [], 0⟩
  step s
    | .pushBack p t =>
      let x := (s.pushes, t)
      some ({ s with que := s.que.pushBack x, pushes := s.pushes + 1 }, [.pushed p x])
    | .call k => match s.taking with
      | some _ => none
      | none => some ({ s with taking := some (k, .test) }, [])
    | .step => do
      let (k, pc) ← s.taking
      match ← s.que.takeStep k pc with
      | (q, .inl pc') => pure ({ s with que := q, taking := some (k, pc') }, [])
      | (q, .inr res) => pure ({ s with que := q, taking := none, held := s.held ++ res }, [.took res])
    | .appendFromDeque done => match s.taking with
      | some _ => none
      | none =>
        let deq := s.held.filter fun x => !done x
        some ({ s with
          que := s.que.appendFromDeque deq
          held := []
          processed := s.processed ++ s.held.filter done }, [.gaveBack deq])

def FrontEmpty (s : GivingBack T) : GiveAct T → Prop
  | .appendFromDeque done => s.que.front = [] ∨ s.held.filter (fun x => !done x) = []
  | _ => True

def givePushed : List (GiveEv T) → List (Numbered T)
  | [] => []
  | .pushed _ x :: tr => x :: givePushed tr
  | .took _ :: tr | .gaveBack _ :: tr => givePushed tr

def giveTaken : List (GiveEv T) → List (Numbered T)
  | [] => []
  | .took res :: tr => res ++ giveTaken tr
  | .pushed .. :: tr | .gaveBack _ :: tr => giveTaken tr

def FirstOf (x : Numbered T) (taken : List (Numbered T)) : Prop :=
  ∀ before y after, taken = before ++ y :: after → x.1 < y.1 → x ∈ before

/-- What is given back is delivered again before everything pushed after it. -/
def Redelivered (tr : List (GiveEv T)) : Prop :=
  ∀ t deq t', tr = t ++ .gaveBack deq :: t' → ∀ x ∈ deq, FirstOf x (giveTaken t')

section

variable {T : Type} {tr : List (GiveEv T)} {s s' : GivingBack T}

theorem givePushed_append (tr tr' : List (GiveEv T)) :
    givePushed (tr ++ tr') = givePushed tr ++ givePushed tr' := by
  induction tr with
  | nil => rfl
  | cons e tr ih => cases e <;> simp [givePushed, ih]

theorem giveTaken_append (tr tr' : List (GiveEv T)) : giveTaken (tr ++ tr') = giveTaken tr ++ giveTaken tr' := by
  induction tr with
  | nil => rfl
  | cons e tr ih => cases e <;> simp [giveTaken, ih]

def GivingBack.inOrder (s : GivingBack T) : List (Numbered T) := s.held ++ s.que.contents

/-- Nothing is lost or doubled, whatever is given back. -/
structure GiveOk (tr : List (GiveEv T)) (s : GivingBack T) : Prop where
  taking : ∀ k pc, s.taking = some (k, pc) → TakeOk s.que pc
  perm : (s.processed ++ s.inOrder).Perm (givePushed tr)
  numbered : ∀ x ∈ s.inOrder, x.1 < s.pushes

def Sorted (xs : List (Numbered T)) : Prop := xs.Pairwise fun a b => a.1 < b.1

/-- What `givingBack` does in a step: the first three leave the elements in
order, a push adds one at the end, and giving back puts what is not processed
behind `front`. -/
theorem givingBack_cases (hok : ∀ k pc, s.taking = some (k, pc) → TakeOk s.que pc)
    (hs : (givingBack T).step s a = some (s', es)) :
    (es = [] ∧ s'.held = s.held ∧ s'.que.contents = s.que.contents ∧ s'.processed = s.processed ∧
        s'.pushes = s.pushes ∧ ∀ k pc, s'.taking = some (k, pc) → TakeOk s'.que pc) ∨
      (∃ p x, es = [.pushed p x] ∧ s'.held = s.held ∧ s'.que.contents = s.que.contents ++ [x] ∧
        s'.processed = s.processed ∧ x.1 = s.pushes ∧ s'.pushes = s.pushes + 1 ∧
        ∀ k pc, s'.taking = some (k, pc) → TakeOk s'.que pc) ∨
      (∃ res, es = [.took res] ∧ s'.held = s.held ++ res ∧ s.que.contents = res ++ s'.que.contents ∧
        s'.processed = s.processed ∧ s'.pushes = s.pushes ∧ s'.taking = none) ∨
      ∃ done, a = .appendFromDeque done ∧ es = [.gaveBack (s.held.filter fun x => !done x)] ∧ s'.held = [] ∧
        s'.que.contents = s.que.front ++ ((s.held.filter fun x => !done x) ++ s.que.tail) ∧
        s'.processed = s.processed ++ s.held.filter done ∧ s'.pushes = s.pushes ∧ s'.taking = none := by
  cases a with
  | pushBack p t =>
    cases hs
    refine .inr (.inl ⟨p, _, rfl, rfl, MutexQue.contents_pushBack .., rfl, rfl, rfl, fun k pc hpc => ?_⟩)
    exact (hok k pc hpc).pushBack _
  | call k =>
    simp only [givingBack] at hs
    split at hs
    · cases hs
    · cases hs
      refine .inl ⟨rfl, rfl, rfl, rfl, rfl, ?_⟩
      rintro _ _ ⟨⟩
      trivial
  | step =>
    simp only [givingBack, Option.bind_eq_bind, Option.bind_eq_some_iff] at hs
    obtain ⟨⟨k, pc⟩, hpc, ⟨q, next⟩, htake, hs⟩ := hs
    cases next with
    | inl pc' =>
      cases hs
      obtain ⟨hok', hcontents⟩ := takeStep_inl (hok k pc hpc) htake
      refine .inl ⟨rfl, rfl, hcontents, rfl, rfl, ?_⟩
      rintro _ _ ⟨⟩
      exact hok'
    | inr res =>
      cases hs
      exact .inr (.inr (.inl ⟨res, rfl, rfl, takeStep_inr htake, rfl, rfl, rfl⟩))
  | appendFromDeque done =>
    simp only [givingBack] at hs
    split at hs
    · cases hs
    · rename_i htaking
      cases hs
      exact .inr (.inr (.inr ⟨done, rfl, rfl, rfl, rfl, rfl, rfl, htaking⟩))

theorem givingBack_ok (h : GiveOk tr s) (hs : (givingBack T).step s a = some (s', es)) : GiveOk (tr ++ es) s' := by
  have hperm := h.perm
  have hnumbered := h.numbered
  unfold GivingBack.inOrder at hperm hnumbered
  obtain ⟨rfl, hheld, hcontents, hprocessed, hpushes, htaking⟩ |
    ⟨p, x, rfl, hheld, hcontents, hprocessed, hx, hpushes, htaking⟩ |
    ⟨res, rfl, hheld, hcontents, hprocessed, hpushes, htaking⟩ |
    ⟨done, -, rfl, hheld, hcontents, hprocessed, hpushes, htaking⟩ := givingBack_cases h.taking hs
  · rw [List.append_nil]
    refine ⟨htaking, ?_, ?_⟩ <;> unfold GivingBack.inOrder
    · rwa [hheld, hcontents, hprocessed]
    · rwa [hheld, hcontents, hpushes]
  · refine ⟨htaking, ?_, ?_⟩ <;> unfold GivingBack.inOrder
    · rw [hheld, hcontents, hprocessed, givePushed_append, ← List.append_assoc, ← List.append_assoc,
        List.append_assoc s.processed]
      exact hperm.append_right [x]
    · rw [hheld, hcontents, hpushes, ← List.append_assoc]
      intro y hy
      rcases List.mem_append.mp hy with hy | hy
      · exact Nat.lt_succ_of_lt (hnumbered y hy)
      · rw [List.mem_singleton.mp hy, hx]
        exact Nat.lt_succ_self _
  · refine ⟨fun _ _ hpc => (nomatch htaking.symm.trans hpc), ?_, ?_⟩ <;> unfold GivingBack.inOrder
    · rw [hheld, hprocessed, givePushed_append, List.append_assoc s.held, ← hcontents]
      simpa [givePushed] using hperm
    · rw [hheld, hpushes, List.append_assoc, ← hcontents]
      exact hnumbered
  · refine ⟨fun _ _ hpc => (nomatch htaking.symm.trans hpc), ?_, ?_⟩ <;> unfold GivingBack.inOrder
    · rw [hheld, hcontents, hprocessed, givePushed_append, List.nil_append, List.append_assoc]
      refine .trans (.append_left _ ?_) (by simpa [givePushed] using hperm)
      have hsplit := List.filter_append_perm done s.held
      have hmove : (s.held.filter done ++ (s.que.front ++ ((s.held.filter fun x => !done x) ++ s.que.tail))).Perm
          ((s.held.filter done ++ s.held.filter fun x => !done x) ++ s.que.contents) := by
        rw [MutexQue.contents, List.append_assoc]
        refine .append_left _ ?_
        rw [← List.append_assoc, ← List.append_assoc]
        exact List.perm_append_comm.append_right _
      exact hmove.trans (hsplit.append_right _)
    · rw [hheld, hcontents, hpushes, List.nil_append]
      intro y hy
      refine hnumbered y ?_
      simp only [List.mem_append, List.mem_filter, MutexQue.contents] at hy ⊢
      tauto

/-- The elements stay in the order of their pushes as long as what is given back
finds `front` empty. -/
theorem givingBack_sorted (h : GiveOk tr s) (hsorted : Sorted s.inOrder) (hok : FrontEmpty s a)
    (hs : (givingBack T).step s a = some (s', es)) : Sorted s'.inOrder := by
  unfold GivingBack.inOrder at hsorted ⊢
  obtain ⟨-, hheld, hcontents, -⟩ | ⟨p, x, -, hheld, hcontents, -, hx, -⟩ | ⟨res, -, hheld, hcontents, -⟩ |
    ⟨done, rfl, -, hheld, hcontents, -⟩ := givingBack_cases h.taking hs
  · rwa [hheld, hcontents]
  · rw [hheld, hcontents, ← List.append_assoc]
    refine List.pairwise_append.mpr ⟨hsorted, List.pairwise_singleton _ _, fun y hy z hz => ?_⟩
    rw [List.mem_singleton.mp hz, hx]
    exact h.numbered y hy
  · rwa [hheld, List.append_assoc, ← hcontents]
  · rw [hheld, hcontents, List.nil_append]
    refine hsorted.sublist ?_
    obtain hfront | hnone := hok
    · rw [hfront, List.nil_append, MutexQue.contents, hfront, List.nil_append]
      exact List.filter_sublist.append_right _
    · rw [hnone, List.nil_append]
      exact List.sublist_append_right _ _

theorem firstOf_cons : FirstOf x (y :: taken) ↔ ¬x.1 < y.1 ∧ (x = y ∨ FirstOf x taken) := by
  constructor
  · intro h
    have hlt : ¬x.1 < y.1 := fun hlt => nomatch h [] y taken rfl hlt
    refine ⟨hlt, or_iff_not_imp_left.mpr fun hne before z after heq hz => ?_⟩
    exact (List.mem_cons.mp (h (y :: before) z after (congrArg (y :: ·) heq) hz)).resolve_left hne
  · rintro ⟨hlt, h⟩ before z after heq hz
    cases before with
    | nil =>
      cases heq
      exact absurd hz hlt
    | cons w before =>
      cases heq
      obtain rfl | h := h
      · exact .head _
      · exact .tail _ (h before z after rfl hz)

theorem firstOf_append : FirstOf x (taken ++ res) ↔ FirstOf x taken ∧ (x ∈ taken ∨ FirstOf x res) := by
  induction taken with
  | nil => simp [FirstOf]
  | cons y taken ih =>
    rw [List.cons_append, firstOf_cons, firstOf_cons, ih, List.mem_cons]
    tauto

theorem firstOf_of_sorted (h : Sorted xs) (hx : x ∈ xs) : FirstOf x xs := by
  rintro before y after rfl hlt
  obtain ⟨-, hafter, -⟩ := List.pairwise_append.mp h
  rcases List.mem_append.mp hx with hx | hx
  · exact hx
  · rcases List.mem_cons.mp hx with rfl | hx
    · exact absurd hlt (Nat.lt_irrefl _)
    · exact absurd hlt (Nat.lt_asymm ((List.pairwise_cons.mp hafter).1 x hx))

/-- Since `x` was given back, `taken` was delivered: `x` is among it or still in
the queue, with only older elements delivered before it. -/
structure Comes (x : Numbered T) (taken contents : List (Numbered T)) : Prop where
  first : FirstOf x taken
  waits : x ∈ taken ∨ x ∈ contents ∧ ∀ y ∈ taken, y.1 < x.1

theorem Comes.took (h : Comes x taken (res ++ contents)) (hsorted : Sorted (res ++ contents)) :
    Comes x (taken ++ res) contents := by
  obtain hx | ⟨hx, holder⟩ := h.waits
  · exact ⟨firstOf_append.mpr ⟨h.first, .inl hx⟩, .inl (List.mem_append_left _ hx)⟩
  · refine ⟨firstOf_append.mpr ⟨h.first, .inr (firstOf_append.mp (firstOf_of_sorted hsorted hx)).1⟩, ?_⟩
    rcases List.mem_append.mp hx with hx | hx
    · exact .inl (List.mem_append_right _ hx)
    · refine .inr ⟨hx, fun y hy => ?_⟩
      rcases List.mem_append.mp hy with hy | hy
      · exact holder y hy
      · exact (List.pairwise_append.mp hsorted).2.2 y hy x hx

def Waiting (tr : List (GiveEv T)) (s : GivingBack T) : Prop :=
  ∀ t deq t', tr = t ++ .gaveBack deq :: t' → ∀ x ∈ deq, Comes x (giveTaken t') s.que.contents

theorem Comes.mono (h : Comes x taken contents) (hsub : ∀ y ∈ contents, y ∈ contents') : Comes x taken contents' :=
  ⟨h.first, h.waits.imp_right fun ⟨hx, holder⟩ => ⟨hsub x hx, holder⟩⟩

theorem givingBack_waiting (h : GiveOk tr s) (hsorted : Sorted s.inOrder) (hwaiting : Waiting tr s)
    (hs : (givingBack T).step s a = some (s', es)) : Waiting (tr ++ es) s' := by
  obtain ⟨rfl, -, hcontents, -⟩ | ⟨p, x, rfl, -, hcontents, -⟩ | ⟨res, rfl, -, hcontents, -⟩ |
    ⟨done, -, rfl, -, hcontents, -⟩ := givingBack_cases h.taking hs
  · rw [List.append_nil]
    unfold Waiting
    rwa [hcontents]
  · rintro t deq t' heq y hy
    obtain ⟨-, heq, -⟩ | ⟨u, rfl, rfl⟩ := snoc_split heq
    · cases heq
    · rw [giveTaken_append, hcontents]
      simp only [giveTaken, List.append_nil]
      exact (hwaiting t deq u rfl y hy).mono fun z hz => List.mem_append_left _ hz
  · rintro t deq t' heq y hy
    obtain ⟨-, heq, -⟩ | ⟨u, rfl, rfl⟩ := snoc_split heq
    · cases heq
    · have hcomes := hwaiting t deq u rfl y hy
      have hqueue : Sorted s.que.contents := (List.pairwise_append.mp hsorted).2.1
      rw [hcontents] at hcomes hqueue
      rw [giveTaken_append]
      simpa [giveTaken] using hcomes.took hqueue
  · rintro t deq t' heq y hy
    obtain ⟨rfl, hdeq, rfl⟩ | ⟨u, rfl, rfl⟩ := snoc_split heq
    · cases hdeq
      refine ⟨fun before z after hsplit => ?_, .inr ⟨?_, nofun⟩⟩
      · cases before <;> cases hsplit
      · rw [hcontents]
        exact List.mem_append_right _ (List.mem_append_left _ hy)
    · rw [giveTaken_append, hcontents]
      simp only [giveTaken, List.append_nil]
      refine (hwaiting t deq u rfl y hy).mono fun z hz => ?_
      rcases List.mem_append.mp hz with hz | hz
      · exact List.mem_append_left _ hz
      · exact List.mem_append_right _ (List.mem_append_right _ hz)

theorem givingBack_inv (h : (givingBack T).RunIf FrontEmpty tr s) :
    GiveOk tr s ∧ Sorted s.inOrder ∧ Waiting tr s := by
  refine h.invariant (I := fun tr s => GiveOk tr s ∧ Sorted s.inOrder ∧ Waiting tr s) ?_ ?_
  · refine ⟨⟨nofun, .refl _, nofun⟩, .nil, fun t deq t' heq => ?_⟩
    cases t <;> cases heq
  · rintro tr s a s' es - ⟨hinv, hsorted, hwaiting⟩ hok hs
    exact ⟨givingBack_ok hinv hs, givingBack_sorted hinv hsorted hok hs,
      givingBack_waiting hinv hsorted hwaiting hs⟩

/-- What the condition leaves out: something is given back while `front` holds
elements; the next `takeOne` delivers one of these, which was pushed later. -/
theorem giveBack_out_of_order (h : (givingBack T).RunIf FrontEmpty tr s) (htaking : s.taking = none)
    (done : Numbered T → Bool) (hok : ¬FrontEmpty s (.appendFromDeque done)) :
    ∃ deq y s', (givingBack T).Steps Machine.anyStep s [.gaveBack deq, .took [y]] s' ∧ deq ≠ [] ∧
      ∀ x ∈ deq, ¬FirstOf x [y] := by
  obtain ⟨hinv, hsorted, -⟩ := givingBack_inv h
  obtain ⟨hfront, hsome⟩ := not_or.mp hok
  obtain ⟨⟨front, tail⟩, _, held, processed, pushes⟩ := s
  cases htaking
  obtain ⟨y, rest, rfl⟩ := List.exists_cons_of_ne_nil hfront
  have hr : (givingBack T).replay ⟨⟨y :: rest, tail⟩, none, held, processed, pushes⟩
      [.appendFromDeque done, .call .one, .step, .step] = some (_, [.gaveBack _, .took [y]]) := rfl
  refine ⟨_, y, _, Machine.steps_of_replay hr, hsome, fun x hx hfirst => ?_⟩
  have hlt : x.1 < y.1 :=
    (List.pairwise_append.mp hsorted).2.2 x (List.mem_filter.mp hx).1 y (.head _)
  cases hfirst [] y [] rfl hlt

end

/-- Whatever the interleaving: as long as something is given back only while
`front` is empty, it is delivered again before everything pushed after it, and
what was processed, is held or is in the queue is what was pushed. -/
theorem giveBack_keeps_order (T : Type) (tr : List (GiveEv T)) (s : GivingBack T)
    (h : (givingBack T).RunIf FrontEmpty tr s) :
    Redelivered tr ∧ (s.processed ++ s.held ++ s.que.front ++ s.que.tail).Perm (givePushed tr) := by
  obtain ⟨hinv, -, hwaiting⟩ := givingBack_inv h
  refine ⟨fun t deq t' heq x hx => (hwaiting t deq t' heq x hx).first, ?_⟩
  simpa [GivingBack.inOrder, MutexQue.contents] using hinv.perm

instance (s : GivingBack T) : (a : GiveAct T) → Decidable (FrontEmpty s a)
  | .appendFromDeque done =>
    inferInstanceAs (Decidable (s.que.front = [] ∨ s.held.filter (fun x => !done x) = []))
  | .pushBack .. | .call _ | .step => .isTrue trivial

theorem giveBack_keeps_order_run : ∃ tr s, (givingBack Nat).RunIf FrontEmpty tr s ∧
    giveTaken tr = [(0, 5), (1, 6), (2, 7), (0, 5), (2, 7), (3, 8)] ∧ Redelivered tr := by
  have hr : (((givingBack Nat).only FrontEmpty).replay (givingBack Nat).init
      [.pushBack 0 5, .pushBack 1 6, .pushBack 0 7, .call .one, .step, .step, .step, .step, .call .multi, .step,
        .pushBack 1 8, .step, .appendFromDeque fun x => x.1 = 1, .call .one, .step, .step, .step, .step,
        .call .multi, .step, .step]).isSome := rfl
  have hrun := Machine.steps_of_replay_only (Option.some_get hr).symm
  exact ⟨_, _, hrun, rfl, (giveBack_keeps_order Nat _ _ hrun).1⟩

/-- Two elements are pushed; the first is taken by `takeOne` and given back, and
the second is delivered before it. -/
theorem giveBack_loses_order : ∃ tr s, (givingBack Nat).Run tr s ∧
    tr = [.pushed 0 (0, 5), .pushed 0 (1, 6), .took [(0, 5)], .gaveBack [(0, 5)], .took [(1, 6)]] ∧
    ¬Redelivered tr := by
  have hr : ((givingBack Nat).replay (givingBack Nat).init
      [.pushBack 0 5, .pushBack 0 6, .call .one, .step, .step, .step, .step, .appendFromDeque fun _ => false,
        .call .one, .step, .step]).isSome := rfl
  refine ⟨_, _, Machine.steps_of_replay (Option.some_get hr).symm, rfl, fun h => ?_⟩
  cases h [.pushed 0 (0, 5), .pushed 0 (1, 6), .took [(0, 5)]] [(0, 5)] [.took [(1, 6)]] rfl (0, 5) (.head _)
    [] (1, 6) [] rfl (by decide)

end Andren.Base

