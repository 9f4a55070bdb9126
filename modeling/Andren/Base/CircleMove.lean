import Andren.Base.CircleQue

/-!
# Moving a circular queue

The move constructor and the move assignment of `CircularQueue` hand over the
vector and both marks. The destination is the queue that was moved. The source
keeps a vector without slots, in which the marks are no indices: every use that
adds an element is out of range (`circularQueue_move_breaks_source`).
-/

namespace Andren.Base

open CircularQueue Machines

inductive CircleCall (T : Type)
  | pushBack (value : T)
  | popFront
  | size
  | clear

inductive CircleMove
  | construct
  | assign

section

variable {T : Type} [Inhabited T]

/-- The destination and the source after the move; a vector that was moved from
is empty. The constructor leaves the marks of the source as they are. -/
def CircularQueue.moved (q : CircularQueue T) : CircleMove → CircularQueue T × CircularQueue T
  | .construct => (q, { q with vec := [] })
  | .assign => (q, ⟨[], 0, 0⟩)

/-- Calls on one queue; no result when an index is out of range. -/
def CircularQueue.run (q : CircularQueue T) : List (CircleCall T) → Option (List (CircleRet T))
  | [] => some []
  | .pushBack v :: calls => do
    let rets ← (← q.add v).run calls
    pure (.none :: rets)
  | .popFront :: calls => do
    let (v, q) ← q.pop
    let rets ← q.run calls
    pure (.elem v :: rets)
  | .size :: calls => do
    let rets ← q.run calls
    pure (.count q.size :: rets)
  | .clear :: calls => do
    let rets ← q.clear.run calls
    pure (.none :: rets)

omit [Inhabited T] in
def fifoRun (l : List T) : List (CircleCall T) → List (CircleRet T)
  | [] => []
  | .pushBack v :: calls => .none :: fifoRun (l ++ [v]) calls
  | .popFront :: calls => .elem l.head? :: fifoRun l.tail calls
  | .size :: calls => .count l.length :: fifoRun l calls
  | .clear :: calls => .none :: fifoRun [] calls

theorem CircularQueue.run_wf {q : CircularQueue T} (hw : q.Wf) (calls : List (CircleCall T)) :
    q.run calls = some (fifoRun q.contents calls) := by
  induction calls generalizing q with
  | nil => rfl
  | cons call calls ih =>
    cases call with
    | pushBack v =>
      obtain ⟨q', hadd, hw', hcontents⟩ := add_ok hw v
      simp [run, fifoRun, hadd, ih hw', hcontents]
    | popFront =>
      obtain ⟨q', hpop, hw', hcontents⟩ := pop_ok hw
      simp [run, fifoRun, hpop, ih hw', hcontents]
    | size => simp [run, fifoRun, ih hw, length_contents hw]
    | clear =>
      obtain ⟨hw', hcontents⟩ := clear_ok hw
      simp [run, fifoRun, ih hw', hcontents]

theorem CircularQueue.run_no_slots {q : CircularQueue T} (hvec : q.vec = []) {calls : List (CircleCall T)}
    (hpush : .pushBack v ∈ calls) : q.run calls = none := by
  induction calls generalizing q with
  | nil => cases hpush
  | cons call calls ih =>
    cases call with
    | pushBack v' => simp [run, add, store, hvec]
    | popFront =>
      have hpush' : .pushBack v ∈ calls := List.mem_of_ne_of_mem (by simp) hpush
      by_cases heq : q.head = q.current
      · simp [run, pop, heq, ih hvec hpush']
      · simp [run, pop, heq, hvec]
    | size =>
      have hpush' : .pushBack v ∈ calls := List.mem_of_ne_of_mem (by simp) hpush
      simp [run, ih hvec hpush']
    | clear =>
      have hpush' : .pushBack v ∈ calls := List.mem_of_ne_of_mem (by simp) hpush
      simp [run, ih (q := q.clear) (by simp [clear, hvec, resize]) hpush']

def AllWf (s : Nat → Option (CircularQueue T)) : Prop := ∀ x q, s x = some q → q.Wf

omit [Inhabited T] in
theorem AllWf.update {s : Nat → Option (CircularQueue T)} (h : AllWf s) (hw : q.Wf) (x : Nat) :
    AllWf (Function.update s x (some q)) := by
  intro y q' hq
  rcases eq_or_ne y x with rfl | hne
  · rw [Function.update_self] at hq
    exact Option.some.inj hq ▸ hw
  · rw [Function.update_of_ne hne] at hq
    exact h y q' hq

theorem circleQueues_allWf {s s' : Nat → Option (CircularQueue T)} (h : AllWf s)
    (hs : (circleQueues T).step s op = some (s', rets)) : AllWf s' := by
  cases op with
  | new x | newSized x n =>
    simp only [circleQueues, Option.ite_none_right_eq_some, Option.some.injEq, Prod.mk.injEq] at hs
    obtain ⟨-, rfl, -⟩ := hs
    first | exact h.update new_ok.1 x | exact h.update (newSized_ok n).1 x
  | copyNew x src =>
    simp only [circleQueues, Option.bind_eq_bind, Option.bind_eq_some_iff, Option.ite_none_right_eq_some,
      Option.some.injEq, Prod.mk.injEq] at hs
    obtain ⟨q, hq, -, rfl, -⟩ := hs
    exact h.update (h src q hq) x
  | copyAssign x src =>
    simp only [circleQueues, Option.bind_eq_bind, Option.bind_eq_some_iff, Option.pure_def, Option.some.injEq,
      Prod.mk.injEq] at hs
    obtain ⟨q, hq, _, -, rfl, -⟩ := hs
    exact h.update (h src q hq) x
  | pushBack x v | emplaceBack x v =>
    simp only [circleQueues, Option.bind_eq_bind, Option.bind_eq_some_iff, Option.pure_def, Option.some.injEq,
      Prod.mk.injEq] at hs
    obtain ⟨q, hq, q', hadd, rfl, -⟩ := hs
    obtain ⟨_, hadd', hw, -⟩ := add_ok (h x q hq) v
    obtain rfl := Option.some.inj (hadd'.symm.trans hadd)
    exact h.update hw x
  | take x | popFront x =>
    simp only [circleQueues, Option.bind_eq_bind, Option.bind_eq_some_iff, Option.pure_def, Option.some.injEq,
      Prod.mk.injEq] at hs
    obtain ⟨q, hq, ⟨v, q'⟩, hpop, rfl, -⟩ := hs
    obtain ⟨_, hpop', hw, -⟩ := pop_ok (h x q hq)
    cases hpop'.symm.trans hpop
    exact h.update hw x
  | clear x =>
    simp only [circleQueues, Option.bind_eq_bind, Option.bind_eq_some_iff, Option.pure_def, Option.some.injEq,
      Prod.mk.injEq] at hs
    obtain ⟨q, hq, rfl, -⟩ := hs
    exact h.update (clear_ok (h x q hq)).1 x
  | swap x y =>
    simp only [circleQueues, Option.bind_eq_bind, Option.bind_eq_some_iff, Option.pure_def, Option.some.injEq,
      Prod.mk.injEq] at hs
    obtain ⟨p, hp, q, hq, rfl, -⟩ := hs
    exact (h.update (h y q hq) x).update (h x p hp) y
  | front x =>
    simp only [circleQueues, Option.bind_eq_bind, Option.bind_eq_some_iff, Option.pure_def, Option.some.injEq,
      Prod.mk.injEq] at hs
    obtain ⟨_, -, _, -, rfl, -⟩ := hs
    exact h
  | size x | empty x =>
    simp only [circleQueues, Option.bind_eq_bind, Option.bind_eq_some_iff, Option.pure_def, Option.some.injEq,
      Prod.mk.injEq] at hs
    obtain ⟨_, -, rfl, -⟩ := hs
    exact h

theorem circleQueues_wf {s : Nat → Option (CircularQueue T)} (h : (circleQueues T).Run tr s) : AllWf s := by
  refine h.state_invariant (fun x q hq => ?_) fun _ _ _ _ hinv _ hs => circleQueues_allWf hinv hs
  cases hq

end

/-- After any calls on any number of queues, a move of one of them, by the
constructor or the assignment: the destination goes on as the queue would have,
and the source never satisfies the invariant: its marks are no indices of its
vector, and all sequences of calls that add an element to it are out of range. -/
theorem circularQueue_move_breaks_source (T : Type) [Inhabited T] (tr : List (CircleRet T))
    (s : Nat → Option (CircularQueue T)) (h : (circleQueues T).Run tr s) (x : Nat) (q : CircularQueue T)
    (hq : s x = some q) (move : CircleMove) :
    (q.moved move).1.contents = q.contents ∧
      (∀ calls, (q.moved move).1.run calls = some (fifoRun q.contents calls)) ∧
      ¬((q.moved move).2.head < (q.moved move).2.vec.length ∧
        (q.moved move).2.current < (q.moved move).2.vec.length) ∧
      ∀ calls v, .pushBack v ∈ calls → (q.moved move).2.run calls = none := by
  have hw := circleQueues_wf h x q hq
  have hdestination : (q.moved move).1 = q := by cases move <;> rfl
  have hsource : (q.moved move).2.vec = [] := by cases move <;> rfl
  rw [hdestination, hsource]
  exact ⟨rfl, run_wf hw, fun hmarks => Nat.not_lt_zero _ hmarks.1, fun calls v => run_no_slots hsource⟩

theorem circularQueue_move_breaks_source_wrapped : ∃ tr s q, (circleQueues Nat).Run tr s ∧ s 0 = some q ∧
    q.contents = [9, 10] ∧ (q.moved .assign).1.run [.pushBack 11, .popFront, .size] =
      some [.none, .elem (some 9), .count 2] ∧ (q.moved .assign).2.run [.clear, .pushBack 3] = none := by
  have hr : ((circleQueues Nat).replay (circleQueues Nat).init
      (.new 0 :: List.append ((List.range 15).flatMap fun n => [.pushBack 0 n, .popFront 0])
        [.pushBack 0 9, .pushBack 0 10])).isSome := rfl
  have hrun := Machine.steps_of_replay (Option.some_get hr).symm
  obtain ⟨-, hdestination, -, hsource⟩ := circularQueue_move_breaks_source Nat _ _ hrun 0 _ rfl .assign
  exact ⟨_, _, _, hrun, rfl, rfl, hdestination _, hsource _ 3 (.tail _ (.head _))⟩

theorem circularQueue_moved_source_out_of_range :
    (circleQueues Nat).Run [.none] (Function.update (fun _ => none) 0 (some new)) ∧
      ((new : CircularQueue Nat).moved .assign).2.vec.length = 0 ∧
      ((new : CircularQueue Nat).moved .assign).2.run [.pushBack 7, .popFront] = none :=
  ⟨.one (a := .new 0) trivial rfl, rfl, rfl⟩

end Andren.Base
