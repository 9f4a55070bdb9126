import Andren.Network.RePoller

/-!
# Callbacks that change the table

A callback may register and cancel descriptors while a tick walks. The walk over
the events looks every callback up. The walk over `m_callbacks` stands at an
entry while it calls it, so what goes on there with other descriptors is
harmless, and a callback that cancels its own erases the entry
(`rePoller_dispatch_safe_iff`). Either walk comes to its end: a descriptor is
called at most once for each event.
-/

namespace Andren.Network

open Machines
open Std (TreeMap)

section

variable {Cb : Type} {B : Behaviour Cb} {currentEventsMap : TreeMap Int Events}

/-- The walk over `m_callbacks` calls `cb` for `fd` when the tick has come to `d'`. -/
inductive Reaches (B : Behaviour Cb) (currentEventsMap : TreeMap Int Events) :
    Option Int → Dispatch Cb → Int → Cb → Events → Dispatch Cb → Prop
  | here : d.poller.m_callbacks[fd]? = some cb → currentEventsMap[fd]? = some events →
      Reaches B currentEventsMap (some fd) d fd cb events d
  | skip : i ∈ d.poller.m_callbacks → currentEventsMap[i]? = none →
      Reaches B currentEventsMap (OrderedMap.next d.poller.m_callbacks i) d fd cb events d' →
      Reaches B currentEventsMap (some i) d fd cb events d'
  | call : d.poller.m_callbacks[i]? = some cb₀ → currentEventsMap[i]? = some events₀ →
      (B d.calls cb₀ events₀).any (PollerCall.cancles i) = false →
      Reaches B currentEventsMap (OrderedMap.next (d.invoke B i cb₀ events₀).poller.m_callbacks i)
        (d.invoke B i cb₀ events₀) fd cb events d' →
      Reaches B currentEventsMap (some i) d fd cb events d'

/-- No callback that the walk over `m_callbacks` calls cancels its own descriptor. -/
def KeepsOwn (B : Behaviour Cb) (p : RePoller Cb) (evs : List (Int × Events)) : Prop :=
  ∀ fd cb events d, Reaches B (mergeEvents p.m_customEvents evs) (OrderedMap.first p.m_callbacks) p.begin
    fd cb events d → (B d.calls cb events).any (PollerCall.cancles fd) = false

/-- A tick for which epoll reports `evs` never stands at an entry that is gone,
and it comes to its end. -/
structure SafeTick (B : Behaviour Cb) (p : RePoller Cb) (evs : List (Int × Events)) : Prop where
  safe : ∀ fuel timeoutMsec wait, (wait (p.usedTimeoutMsec timeoutMsec)).events = some evs →
    p.work B fuel timeoutMsec wait ≠ .error .erased
  ends : ∀ timeoutMsec wait, (wait (p.usedTimeoutMsec timeoutMsec)).events = some evs →
    ∃ fuel d, p.work B fuel timeoutMsec wait = .ok d

theorem traverseCallbacks_skip {d : Dispatch Cb} (hmem : i ∈ d.poller.m_callbacks)
    (hcur : currentEventsMap[i]? = none) :
    traverseCallbacks B currentEventsMap (fuel + 1) (some i) d =
      traverseCallbacks B currentEventsMap fuel (OrderedMap.next d.poller.m_callbacks i) d := by
  obtain ⟨cb, hcb⟩ := OrderedMap.mem_iff_exists.mp hmem
  simp only [traverseCallbacks, hcb, hcur]

theorem traverseCallbacks_call {d : Dispatch Cb} (hcb : d.poller.m_callbacks[i]? = some cb)
    (hcur : currentEventsMap[i]? = some events) :
    traverseCallbacks B currentEventsMap (fuel + 1) (some i) d =
      if (B d.calls cb events).any (PollerCall.cancles i) then .error .erased
      else traverseCallbacks B currentEventsMap fuel
        (OrderedMap.next (d.invoke B i cb events).poller.m_callbacks i) (d.invoke B i cb events) := by
  simp only [traverseCallbacks, hcb, hcur]

/-- Only a callback that cancels its own descriptor takes the entry away. -/
theorem reaches_of_erased {d : Dispatch Cb} (hiter : ∀ i ∈ iter, i ∈ d.poller.m_callbacks)
    (h : traverseCallbacks B currentEventsMap fuel iter d = .error .erased) :
    ∃ fd cb events d', Reaches B currentEventsMap iter d fd cb events d' ∧
      (B d'.calls cb events).any (PollerCall.cancles fd) = true := by
  induction fuel generalizing iter d with
  | zero => cases iter <;> cases h
  | succ fuel ih =>
    cases iter with
    | none => cases h
    | some i =>
      have hmem := hiter i rfl
      obtain ⟨cb, hcb⟩ := OrderedMap.mem_iff_exists.mp hmem
      cases hcur : currentEventsMap[i]? with
      | none =>
        rw [traverseCallbacks_skip hmem hcur] at h
        obtain ⟨fd, cb', events, d', hreach, hcancle⟩ := ih (fun _ => OrderedMap.mem_of_next) h
        exact ⟨fd, cb', events, d', .skip hmem hcur hreach, hcancle⟩
      | some events =>
        rw [traverseCallbacks_call hcb hcur] at h
        cases hown : (B d.calls cb events).any (PollerCall.cancles i) with
        | true => exact ⟨i, cb, events, d, .here hcb hcur, hown⟩
        | false =>
          rw [hown, if_neg Bool.false_ne_true] at h
          obtain ⟨fd, cb', events', d', hreach, hcancle⟩ := ih (fun _ => OrderedMap.mem_of_next) h
          exact ⟨fd, cb', events', d', .call hcb hcur hown hreach, hcancle⟩

theorem erased_of_reaches {d d' : Dispatch Cb} (h : Reaches B currentEventsMap iter d fd cb events d')
    (hcancle : (B d'.calls cb events).any (PollerCall.cancles fd) = true) :
    ∃ fuel, traverseCallbacks B currentEventsMap fuel iter d = .error .erased := by
  induction h with
  | here hcb hcur =>
    refine ⟨1, ?_⟩
    rw [traverseCallbacks_call hcb hcur, if_pos hcancle]
  | skip hmem hcur _ ih =>
    obtain ⟨fuel, hfuel⟩ := ih hcancle
    refine ⟨fuel + 1, ?_⟩
    rw [traverseCallbacks_skip hmem hcur, hfuel]
  | call hcb hcur hown _ ih =>
    obtain ⟨fuel, hfuel⟩ := ih hcancle
    refine ⟨fuel + 1, ?_⟩
    rw [traverseCallbacks_call hcb hcur, hown, if_neg Bool.false_ne_true, hfuel]

theorem traverseCallbacks_ends (i : Int) (d : Dispatch Cb) (hmem : i ∈ d.poller.m_callbacks)
    (hsafe : ∀ fuel, traverseCallbacks B currentEventsMap fuel (some i) d ≠ .error .erased) :
    ∃ fuel d', traverseCallbacks B currentEventsMap fuel (some i) d = .ok d' := by
  obtain ⟨cb, hcb⟩ := OrderedMap.mem_iff_exists.mp hmem
  cases hcur : currentEventsMap[i]? with
  | none =>
    cases hnext : OrderedMap.next d.poller.m_callbacks i with
    | none =>
      refine ⟨1, d, ?_⟩
      rw [traverseCallbacks_skip hmem hcur, hnext]
      rfl
    | some j =>
      have hlt := OrderedMap.lt_of_next hnext
      obtain ⟨fuel, d', h⟩ := traverseCallbacks_ends j d (OrderedMap.mem_of_next hnext) <| by
        intro fuel
        rw [← hnext, ← traverseCallbacks_skip hmem hcur]
        exact hsafe (fuel + 1)
      refine ⟨fuel + 1, d', ?_⟩
      rw [traverseCallbacks_skip hmem hcur, hnext, h]
  | some events =>
    have hown : (B d.calls cb events).any (PollerCall.cancles i) = false := by
      rw [Bool.eq_false_iff]
      intro hown
      refine hsafe 1 ?_
      rw [traverseCallbacks_call hcb hcur, if_pos hown]
    cases hnext : OrderedMap.next (d.invoke B i cb events).poller.m_callbacks i with
    | none =>
      refine ⟨1, d.invoke B i cb events, ?_⟩
      rw [traverseCallbacks_call hcb hcur, hown, hnext]
      rfl
    | some j =>
      have hlt := OrderedMap.lt_of_next hnext
      have hevents : i ∈ currentEventsMap := OrderedMap.mem_of_eq_some hcur
      obtain ⟨fuel, d', h⟩ := traverseCallbacks_ends j (d.invoke B i cb events) (OrderedMap.mem_of_next hnext) <| by
        intro fuel
        have hfuel := hsafe (fuel + 1)
        rwa [traverseCallbacks_call hcb hcur, hown, if_neg Bool.false_ne_true, hnext] at hfuel
      refine ⟨fuel + 1, d', ?_⟩
      rw [traverseCallbacks_call hcb hcur, hown, if_neg Bool.false_ne_true, hnext, h]
termination_by (OrderedMap.countFrom currentEventsMap i, OrderedMap.countFrom d.poller.m_callbacks i)
decreasing_by
  · exact Prod.Lex.right' _ (OrderedMap.countFrom_le _ hlt) (OrderedMap.countFrom_lt hlt hmem)
  · exact Prod.Lex.left _ _ (OrderedMap.countFrom_lt hlt hevents)

theorem work_byEvents (p : RePoller Cb) (hwait : (wait (p.usedTimeoutMsec timeoutMsec)).events = some evs)
    (hsize : p.m_customEvents.size < p.m_callbacks.size) : p.work B fuel timeoutMsec wait =
      .ok (traverseEvents B (mergeEvents p.m_customEvents evs).toList p.begin) := by
  simp only [RePoller.work, hwait, hsize, if_true]

theorem work_byCallbacks (p : RePoller Cb) (hwait : (wait (p.usedTimeoutMsec timeoutMsec)).events = some evs)
    (hsize : ¬p.m_customEvents.size < p.m_callbacks.size) : p.work B fuel timeoutMsec wait =
      traverseCallbacks B (mergeEvents p.m_customEvents evs) fuel (OrderedMap.first p.m_callbacks) p.begin := by
  simp only [RePoller.work, hwait, hsize, if_false]

end

/-- A tick is safe just when it walks over the events, or when no callback that
it calls cancels its own descriptor. -/
theorem rePoller_dispatch_safe_iff (B : Behaviour Cb) (p : RePoller Cb) (evs : List (Int × Events)) :
    SafeTick B p evs ↔ p.m_customEvents.size < p.m_callbacks.size ∨ KeepsOwn B p evs := by
  have hfirst : ∀ i ∈ OrderedMap.first p.m_callbacks, i ∈ p.begin.poller.m_callbacks :=
    fun _ => OrderedMap.mem_of_first
  constructor
  · intro h
    refine or_iff_not_imp_left.mpr fun hsize => ?_
    intro fd cb events d hreach
    rw [Bool.eq_false_iff]
    intro hcancle
    obtain ⟨fuel, herased⟩ := erased_of_reaches hreach hcancle
    refine h.safe fuel 0 (fun _ => .ready evs) rfl ?_
    rw [work_byCallbacks p rfl hsize, herased]
  · intro h
    by_cases hsize : p.m_customEvents.size < p.m_callbacks.size
    · refine ⟨?_, ?_⟩
      · intro fuel timeoutMsec wait hwait
        rw [work_byEvents p hwait hsize]
        exact nofun
      · intro timeoutMsec wait hwait
        exact ⟨0, _, work_byEvents p hwait hsize⟩
    · have hkeeps := h.resolve_left hsize
      have hsafe (fuel : Nat) : traverseCallbacks B (mergeEvents p.m_customEvents evs) fuel
          (OrderedMap.first p.m_callbacks) p.begin ≠ .error .erased := by
        intro herased
        obtain ⟨fd, cb, events, d, hreach, hcancle⟩ := reaches_of_erased hfirst herased
        rw [hkeeps fd cb events d hreach] at hcancle
        cases hcancle
      refine ⟨?_, ?_⟩
      · intro fuel timeoutMsec wait hwait
        rw [work_byCallbacks p hwait hsize]
        exact hsafe fuel
      · intro timeoutMsec wait hwait
        cases hiter : OrderedMap.first p.m_callbacks with
        | none =>
          refine ⟨0, p.begin, ?_⟩
          rw [work_byCallbacks p hwait hsize, hiter]
          rfl
        | some i =>
          rw [hiter] at hsafe hfirst
          obtain ⟨fuel, d, hd⟩ := traverseCallbacks_ends i p.begin (hfirst i rfl) hsafe
          refine ⟨fuel, d, ?_⟩
          rw [work_byCallbacks p hwait hsize, hiter, hd]

def canclesOwn : Behaviour Unit := fun _ _ _ => [.cancle 7]

/-- One registration and one custom event: the entry of descriptor 7 is erased
while the walk stands at it. -/
theorem rePoller_dispatch_unsafe : ¬SafeTick canclesOwn
    ⟨(∅ : TreeMap Int Unit).insert 7 (), (∅ : TreeMap Int Events).insert 7 1, false⟩ [] := by
  intro h
  exact h.safe 1 0 (fun _ => .interrupted) rfl rfl

end Andren.Network
