import Andren.Network.IoService

/-!
# The gauges of the io_uring service

`m_used` counts the SQEs that were prepared and whose CQEs were not yet
consumed, and `m_size` is the size given at construction. `sqe_used` returns
the second and `entries_size` the first, so both are right only when the two
numbers are the same, and a processing tick waits when there is nothing to
wait for (`ioService_gauges`).
-/

namespace Andren.Network

open Machines Base

variable {D : Type} {entries m_size : Nat}

/-- The SQEs prepared whose CQEs the ring still has or has yet to get. -/
def IOService.unconsumed (s : IOService D) : Nat := s.sq.length + s.inflight.length + s.cq.length

/-- What the two gauges of a service of size `m_size` should say, and what the
first is read for. -/
structure GaugesRight (entries : Nat) (m_size : BitVec 32) (s : IOService D) : Prop where
  used : s.sqe_used = s.unconsumed
  size : s.entries_size = m_size.toNat
  /-- A tick that finds nothing outstanding returns before it submits and waits. -/
  rests : s.unconsumed = 0 → s.tick = .running [] → ∀ ret,
    (ioService entries m_size.toNat D).step s (.submit ret) = some ({ s with tick := .idle }, [])

structure Counted (m_size : Nat) (s : IOService D) : Prop where
  used : s.m_used = BitVec.ofNat 32 s.unconsumed
  size : s.m_size = m_size

theorem Counted.same {s s' : IOService D} (h : Counted m_size s) (hused : s'.m_used = s.m_used)
    (hsize : s'.m_size = s.m_size) (hunconsumed : s'.unconsumed = s.unconsumed) : Counted m_size s' where
  used := by rw [hused, hunconsumed, h.used]
  size := hsize.trans h.size

theorem Counted.add {s s' : IOService D} (h : Counted m_size s) (hused : s'.m_used = s.m_used + 1)
    (hsize : s'.m_size = s.m_size) (hunconsumed : s'.unconsumed = s.unconsumed + 1) : Counted m_size s' where
  used := by
    rw [hused, hunconsumed, h.used, BitVec.ofNat_add]
    rfl
  size := hsize.trans h.size

theorem Counted.prepare {s s' : IOService D} (h : Counted m_size s)
    (hs : s.submitRequest_Private entries uid a context = some (s', ret)) : Counted m_size s' := by
  simp only [IOService.submitRequest_Private, Option.bind_eq_bind, Option.bind_eq_some_iff, Option.pure_def] at hs
  obtain ⟨a', -, request, -, hs⟩ := hs
  split at hs
  · cases hs
    exact h.same rfl rfl rfl
  · split at hs <;> cases hs
    · refine h.add rfl rfl ?_
      simp only [IOService.unconsumed, IOService.store, List.length_append, List.length_singleton]
      omega
    · exact h.same rfl rfl rfl

theorem Counted.erase {s s' : IOService D} (h : Counted m_size s) (hs : s.erase uid iter = some s') :
    Counted m_size s' := by
  cases iter with
  | none => cases hs
  | some a =>
    cases hs
    exact h.same rfl rfl rfl

theorem Counted.handle {s s' : IOService D} (h : Counted m_size s) (hs : s.handle e events = some (s', es)) :
    Counted m_size s' := by
  simp only [IOService.handle, Option.bind_eq_bind] at hs
  split at hs
  · cases hs
    exact h.same rfl rfl rfl
  · simp only [Option.bind_eq_some_iff] at hs
    obtain ⟨context, -, request, -, hs⟩ := hs
    split at hs
    · cases hs
      exact h.same rfl rfl rfl
    · simp only [Option.bind_eq_some_iff] at hs
      obtain ⟨s₁, herase, hs⟩ := hs
      cases hs
      exact (h.erase herase).same rfl rfl rfl

theorem Counted.finish {s s' : IOService D} (h : Counted m_size s)
    (hs : s.finish a uid iter events bret context = some (s', es)) : Counted m_size s' := by
  have hleft : Counted m_size { s with
      nodes := Function.update s.nodes a (some context), tick := .handling events } := h.same rfl rfl rfl
  simp only [IOService.finish] at hs
  split at hs
  · simp only [Option.bind_eq_bind, Option.bind_eq_some_iff] at hs
    obtain ⟨s₁, herase, hs⟩ := hs
    cases hs
    exact hleft.erase herase
  · cases hs
    exact hleft

theorem counted_step {s s' : IOService D} (h : Counted m_size s)
    (hs : (ioService entries m_size D).step s a = some (s', es)) : Counted m_size s' := by
  cases a with
  | submitRequest uid context =>
    cases hs
    exact h.same rfl rfl rfl
  | begin =>
    simp only [ioService] at hs
    split at hs <;> cases hs
    exact h.same rfl rfl rfl
  | take =>
    simp only [ioService] at hs
    split at hs
    · simp only [Option.bind_eq_bind, Option.bind_eq_some_iff] at hs
      obtain ⟨⟨q, next⟩, -, hs⟩ := hs
      cases next <;> cases hs <;> exact h.same rfl rfl rfl
    · cases hs
  | runFn a =>
    simp only [ioService] at hs
    split at hs
    · simp only [Option.bind_eq_bind, Option.bind_eq_some_iff] at hs
      obtain ⟨⟨s₁, ret⟩, hstore, hs⟩ := hs
      cases hs
      exact (h.prepare hstore).same rfl rfl rfl
    · cases hs
  | submit ret =>
    simp only [ioService] at hs
    split at hs
    · split at hs
      · cases hs
        exact h.same rfl rfl rfl
      · split at hs <;> cases hs
        · exact h.same rfl rfl rfl
        · rename_i k
          refine h.same rfl rfl ?_
          simp only [IOService.unconsumed, List.length_drop, List.length_append, List.length_take]
          omega
    · cases hs
  | wait ok =>
    simp only [ioService] at hs
    split at hs <;> cases hs
    exact h.same rfl rfl rfl
  | reap =>
    simp only [ioService] at hs
    split at hs <;> cases hs
    refine ⟨?_, h.size⟩
    dsimp only [IOService.unconsumed]
    rw [h.used, IOService.unconsumed, BitVec.ofNat_add, List.length_nil, Nat.add_zero]
    exact BitVec.add_sub_cancel _ _
  | handle =>
    simp only [ioService] at hs
    split at hs
    · cases hs
      exact h.same rfl rfl rfl
    · exact h.handle hs
    · cases hs
  | finish bret context =>
    simp only [ioService] at hs
    split at hs
    · exact h.finish hs
    · cases hs
  | complete k res =>
    simp only [ioService, Option.bind_eq_bind, Option.bind_eq_some_iff] at hs
    obtain ⟨sqe, hk, hs⟩ := hs
    cases hs
    have hlt := (List.getElem?_eq_some_iff.mp hk).1
    refine h.same rfl rfl ?_
    simp only [IOService.unconsumed, List.length_eraseIdx, hlt, if_true, List.length_append, List.length_singleton]
    omega

theorem counted_run {s : IOService D} (h : (ioService entries m_size D).Run tr s) : Counted m_size s := by
  have hnew : Counted m_size (IOService.new m_size D) := ⟨rfl, rfl⟩
  exact h.state_invariant hnew fun _ _ _ _ hi _ hs => counted_step hi hs

/-- The gauges are right just in the states in which as many SQEs are
unconsumed as the ring has entries. -/
theorem ioService_gauges (entries : Nat) (m_size : BitVec 32) (D : Type) (tr : List (IoEv D)) (s : IOService D)
    (h : (ioService entries m_size.toNat D).Run tr s) :
    GaugesRight entries m_size s ↔ s.unconsumed = m_size.toNat := by
  obtain ⟨hused, hsize⟩ := counted_run h
  constructor
  · intro hright
    rw [← hright.used, IOService.sqe_used, hsize]
  · intro hfull
    refine ⟨hsize.trans hfull.symm, ?_, ?_⟩
    · rw [IOService.entries_size, hused, hfull, BitVec.ofNat_toNat, BitVec.setWidth_eq]
    · intro hnone htick ret
      have hzero : s.sqe_used ≤ 0 := Nat.le_of_eq (hsize.trans (hfull.symm.trans hnone))
      simp only [ioService, htick, if_pos hzero]

theorem ioService_gauges_full : ∃ tr s, (ioService 1 1 Nat).Run tr s ∧ s.unconsumed = 1 ∧ GaugesRight 1 1 s := by
  have hr : ((ioService 1 1 Nat).replay (IOService.new 1 Nat)
      [.submitRequest 5 ⟨some 0, some ⟨.READ, 5⟩⟩, .begin, .take, .take, .take, .take, .runFn 3]).isSome := rfl
  have hrun := Machine.steps_of_replay (Option.some_get hr).symm
  exact ⟨_, _, hrun, rfl, (ioService_gauges 1 1 Nat _ _ hrun).mpr rfl⟩

/-- A new service of 128 entries: the gauges are the wrong way round, and the
first tick submits and waits with nothing outstanding. -/
theorem ioService_gauges_swapped : ¬∀ tr s, (ioService 128 128 Nat).Run tr s → GaugesRight 128 128 s := by
  intro h
  have hused := (h [] _ .refl).used
  cases hused

end Andren.Network
