import Andren.Machine.Basic
import Andren.Machine.Trace
import Andren.Network.RePoller

/-!
# Polling, call by call

The IO thread runs ticks, and between them and inside their callbacks it calls
`notifyEvents`, `setReadyCallback` and `cancle`. Here each of these calls, each
wait and each step of a walk is an action of its own, so that a callback may do
anything; `work_steps` says that `work` takes such steps.

`notifyEvents` overwrites, and `cancle` leaves the custom events: a post may be
lost, and it may reach the callback of another registration.
-/

namespace Andren.Network

open Machines
open Std (TreeMap)

inductive Walk
  | events (rest : List (Int × Events))
  /-- The iterator, and whether its entry was erased. -/
  | callbacks (iter : Option Int) (erased : Bool)

structure Tick where
  customEvents : TreeMap Int Events
  evs : List (Int × Events)
  walk : Walk
  /-- The descriptor whose callback runs. -/
  running : Option Int

structure Polling (Cb : Type) where
  poller : RePoller Cb
  tick : Option Tick

inductive PollAct (Cb : Type)
  | call (c : PollerCall Cb)
  | wait (result : EpollWait)
  | visit
  /-- The running callback returns. -/
  | ret

inductive PollEv (Cb : Type)
  /-- `notifyEvents` returned true. -/
  | posted (fd : Int) (events : Events)
  | registered (fd : Int)
  | cancled (fd : Int)
  | failed
  | polled (evs : List (Int × Events))
  | invoked (fd : Int) (cb : Cb) (events : Events)
  /-- `work` returned. -/
  | ended

section

variable {Cb : Type}

def RePoller.perform (p : RePoller Cb) : PollerCall Cb → RePoller Cb × List (PollEv Cb)
  | .notifyEvents fd events => match p.notifyEvents fd events with
    | (p, true) => (p, [.posted fd events])
    | (p, false) => (p, [])
  | .setReadyCallback fd cb => match p.setReadyCallback fd cb with
    | (p, true) => (p, [.registered fd])
    | (p, false) => (p, [])
  | .cancle fd => (p.cancle fd, [.cancled fd])

namespace Tick

def currentEventsMap (k : Tick) : TreeMap Int Events := mergeEvents k.customEvents k.evs

/-- A call may erase the entry that the iterator stands at. -/
def note (k : Tick) (c : PollerCall Cb) : Tick :=
  match k.walk with
  | .callbacks (some i) erased => { k with walk := .callbacks (some i) (erased || c.cancles i) }
  | _ => k

/-- The walk may still reach `fd`. -/
def Ahead (k : Tick) (fd : Int) : Prop :=
  match k.walk, k.running with
  | .events rest, _ => fd ∈ rest.map Prod.fst
  | .callbacks none _, _ => False
  | .callbacks (some i) _, none => i ≤ fd
  | .callbacks (some i) _, some _ => i < fd

instance (k : Tick) (fd : Int) : Decidable (k.Ahead fd) :=
  match hw : k.walk, hr : k.running with
  | .events rest, _ => decidable_of_iff (fd ∈ rest.map Prod.fst) (by unfold Ahead; rw [hw])
  | .callbacks none _, _ => isFalse (by unfold Ahead; rw [hw]; exact id)
  | .callbacks (some i) _, none => decidable_of_iff (i ≤ fd) (by unfold Ahead; rw [hw, hr])
  | .callbacks (some i) _, some _ => decidable_of_iff (i < fd) (by unfold Ahead; rw [hw, hr])

end Tick

namespace Polling

def wait (s : Polling Cb) (result : EpollWait) : Polling Cb × List (PollEv Cb) :=
  match result.events with
  | none => ({ s with poller := { s.poller.begin.poller with m_shutdown := true } }, [.failed])
  | some evs =>
    let customEvents := s.poller.m_customEvents
    let walk := if customEvents.size < s.poller.m_callbacks.size
      then Walk.events (mergeEvents customEvents evs).toList
      else Walk.callbacks (OrderedMap.first s.poller.m_callbacks) false
    (⟨s.poller.begin.poller, some ⟨customEvents, evs, walk, none⟩⟩, [.polled evs])

def visit (s : Polling Cb) (k : Tick) : Option (Polling Cb × List (PollEv Cb)) :=
  match k.walk with
  | .events [] => some ({ s with tick := none }, [.ended])
  | .events ((fd, events) :: rest) => match s.poller.m_callbacks[fd]? with
    | some cb => some ({ s with tick := some { k with walk := .events rest, running := some fd } },
        [.invoked fd cb events])
    | none => some ({ s with tick := some { k with walk := .events rest } }, [])
  | .callbacks none _ => some ({ s with tick := none }, [.ended])
  | .callbacks (some fd) erased => match s.poller.m_callbacks[fd]? with
    | none => none
    | some cb => match k.currentEventsMap[fd]? with
      | some events => some ({ s with tick := some { k with running := some fd } }, [.invoked fd cb events])
      | none =>
        let iter := OrderedMap.next s.poller.m_callbacks fd
        some ({ s with tick := some { k with walk := .callbacks iter erased } }, [])

/-- The iterator may not advance from an entry that was erased. -/
def ret (s : Polling Cb) (k : Tick) : Option (Polling Cb) :=
  match k.walk with
  | .events _ => some { s with tick := some { k with running := none } }
  | .callbacks (some i) false =>
    let iter := OrderedMap.next s.poller.m_callbacks i
    some { s with tick := some { k with walk := .callbacks iter false, running := none } }
  | .callbacks .. => none

end Polling

def polling (Cb : Type) : Machine (Polling Cb) (PollAct Cb) (PollEv Cb) where
  init := ⟨⟨∅, ∅, false⟩, none⟩
  step s a := match a, s.tick with
    | .call c, none =>
      let (p, es) := s.poller.perform c
      some (⟨p, none⟩, es)
    | .call c, some k => match k.running with
      | none => none
      | some _ =>
        let (p, es) := s.poller.perform c
        some (⟨p, some (k.note c)⟩, es)
    | .wait result, none => some (s.wait result)
    | .wait _, some _ => none
    | .visit, some k => match k.running with
      | none => s.visit k
      | some _ => none
    | .ret, some k => match k.running with
      | some _ => (s.ret k).map fun s => (s, [])
      | none => none
    | _, none => none

-- ---------------------------------------------------------------------------
-- What an action does
-- ---------------------------------------------------------------------------

inductive Performs (p : RePoller Cb) : PollerCall Cb → RePoller Cb → List (PollEv Cb) → Prop
  | posted : p.m_callbacks.contains fd = true → Performs p (.notifyEvents fd events)
      { p with m_customEvents := p.m_customEvents.insert fd events } [.posted fd events]
  | registered : Performs p (.setReadyCallback fd (some cb))
      { p with m_callbacks := p.m_callbacks.insert fd cb } [.registered fd]
  | cancled : Performs p (.cancle fd) { p with m_callbacks := p.m_callbacks.erase fd } [.cancled fd]
  | refused : Performs p c p []

theorem performs (p : RePoller Cb) (c : PollerCall Cb) :
    Performs p c (p.perform c).1 (p.perform c).2 := by
  cases c with
  | notifyEvents fd events =>
    simp only [RePoller.perform, notifyEvents_eq]
    split
    · rename_i h
      split at h
      · rename_i hok
        cases h
        exact .posted hok.2.2
      · cases h
    · rename_i h
      split at h
      · cases h
      · cases h
        exact .refused
  | setReadyCallback fd cb =>
    simp only [RePoller.perform]
    cases cb with
    | none => exact .refused
    | some cb =>
      simp only [RePoller.setReadyCallback]
      split
      · rename_i h
        split at h
        · cases h
        · cases h
          exact .registered
      · rename_i h
        split at h
        · cases h
          exact .refused
        · cases h
  | cancle fd => exact .cancled

@[simp] theorem note_customEvents (k : Tick) (c : PollerCall Cb) : (k.note c).customEvents = k.customEvents := by
  unfold Tick.note
  split <;> rfl

@[simp] theorem note_evs (k : Tick) (c : PollerCall Cb) : (k.note c).evs = k.evs := by
  unfold Tick.note
  split <;> rfl

@[simp] theorem note_ahead (k : Tick) (c : PollerCall Cb) (fd : Int) : (k.note c).Ahead fd ↔ k.Ahead fd := by
  unfold Tick.note
  split
  · rename_i i erased hwalk
    unfold Tick.Ahead
    rw [hwalk]
    cases k.running <;> rfl
  · rfl

def Tick.Listed (k : Tick) : Prop :=
  match k.walk with
  | .events rest => ∀ x ∈ rest, k.currentEventsMap[x.1]? = some x.2
  | .callbacks .. => True

theorem Tick.Listed.note {k : Tick} (h : k.Listed) (c : PollerCall Cb) : (k.note c).Listed := by
  unfold Tick.note
  split
  · trivial
  · exact h

/-- `k` becomes `k'` in a step of the walk over `cbs`, which leaves no descriptor
behind that has a callback and events, but `fd` if it is called. -/
structure Advances (cbs : TreeMap Int Cb) (fd : Option Int) (k k' : Tick) : Prop where
  customEvents : k'.customEvents = k.customEvents
  evs : k'.evs = k.evs
  listed : k'.Listed
  ahead : ∀ fd', k'.Ahead fd' → k.Ahead fd'
  passes : ∀ fd', fd' ∈ cbs → fd' ∈ k.currentEventsMap → k.Ahead fd' → fd = some fd' ∨ k'.Ahead fd'

inductive Turn (s : Polling Cb) : PollAct Cb → Polling Cb → List (PollEv Cb) → Prop
  | call : Performs s.poller c p es → Turn s (.call c) ⟨p, s.tick.map (Tick.note · c)⟩ es
  | failed : s.tick = none → result.events = none → Turn s (.wait result)
      ⟨{ s.poller with m_customEvents := ∅, m_shutdown := true }, none⟩ [.failed]
  | polled (k : Tick) : s.tick = none → k.customEvents = s.poller.m_customEvents → k.Listed →
      (∀ fd, fd ∈ s.poller.m_callbacks → fd ∈ k.currentEventsMap → k.Ahead fd) →
      Turn s (.wait result) ⟨{ s.poller with m_customEvents := ∅ }, some k⟩ [.polled k.evs]
  | invoked : s.tick = some k → s.poller.m_callbacks[fd]? = some cb →
      k.currentEventsMap[fd]? = some events → k.Ahead fd → Advances s.poller.m_callbacks (some fd) k k' →
      Turn s .visit { s with tick := some k' } [.invoked fd cb events]
  | advanced : s.tick = some k → Advances s.poller.m_callbacks none k k' →
      Turn s a { s with tick := some k' } []
  | ended : s.tick = some k → (∀ fd, ¬k.Ahead fd) → Turn s .visit { s with tick := none } [.ended]

theorem Tick.ahead_events {k : Tick} (hwalk : k.walk = .events rest) : k.Ahead fd ↔ fd ∈ rest.map Prod.fst := by
  unfold Tick.Ahead
  rw [hwalk]

theorem Tick.not_ahead_end {k : Tick} (hwalk : k.walk = .callbacks none erased) : ¬k.Ahead fd := by
  unfold Tick.Ahead
  rw [hwalk]
  exact id

theorem Tick.ahead_idle {k : Tick} (hwalk : k.walk = .callbacks (some i) erased) (hrunning : k.running = none) :
    k.Ahead fd ↔ i ≤ fd := by
  unfold Tick.Ahead
  rw [hwalk, hrunning]

theorem Tick.ahead_running {k : Tick} (hwalk : k.walk = .callbacks (some i) erased)
    (hrunning : k.running = some j) : k.Ahead fd ↔ i < fd := by
  unfold Tick.Ahead
  rw [hwalk, hrunning]

theorem Tick.ahead_of_lt {k : Tick} (hwalk : k.walk = .callbacks (some i) erased) (h : i < fd) : k.Ahead fd := by
  cases hrunning : k.running with
  | none => exact (Tick.ahead_idle hwalk hrunning).mpr h.le
  | some _ => exact (Tick.ahead_running hwalk hrunning).mpr h

theorem Tick.Ahead.le {k : Tick} (h : k.Ahead fd) (hwalk : k.walk = .callbacks (some i) erased) : i ≤ fd := by
  cases hrunning : k.running with
  | none => exact (Tick.ahead_idle hwalk hrunning).mp h
  | some _ => exact ((Tick.ahead_running hwalk hrunning).mp h).le

theorem advances_next {cbs : TreeMap Int Cb} {k : Tick} (hwalk : k.walk = .callbacks (some i) erased)
    (hdone : ∀ fd, fd ∈ k.currentEventsMap → k.Ahead fd → fd ≠ i) : Advances cbs none k
      { k with walk := .callbacks (OrderedMap.next cbs i) erased', running := none } where
  customEvents := rfl
  evs := rfl
  listed := trivial
  ahead := by
    intro fd h
    cases hnext : OrderedMap.next cbs i with
    | none =>
      rw [hnext] at h
      exact absurd h (Tick.not_ahead_end rfl)
    | some j =>
      rw [hnext] at h
      have hlt := compare_lt_iff_lt.mp (OrderedMap.lt_of_next hnext)
      exact Tick.ahead_of_lt hwalk (lt_of_lt_of_le hlt (h.le rfl))
  passes := by
    intro fd hcb hcur hahead
    have hlt : i < fd := lt_of_le_of_ne (hahead.le hwalk) (hdone fd hcur hahead).symm
    obtain ⟨j, hnext, hle⟩ := OrderedMap.next_le hcb (compare_lt_iff_lt.mpr hlt)
    rw [hnext]
    exact .inr ((Tick.ahead_idle rfl rfl).mpr (Std.isLE_compare.mp hle))

theorem advances_rest {cbs : TreeMap Int Cb} {k : Tick} (hwalk : k.walk = .events ((fd, events) :: rest))
    (hlisted : k.Listed) (hfd : called = some fd ∨ fd ∉ cbs) :
    Advances cbs called k { k with walk := .events rest, running := running } where
  customEvents := rfl
  evs := rfl
  listed := by
    unfold Tick.Listed at hlisted
    rw [hwalk] at hlisted
    exact fun x hx => hlisted x (.tail _ hx)
  ahead := by
    intro fd' h
    rw [Tick.ahead_events rfl] at h
    rw [Tick.ahead_events hwalk]
    exact .tail _ h
  passes := by
    intro fd' hcb _ hahead
    rw [Tick.ahead_events hwalk] at hahead
    rcases List.mem_cons.mp hahead with rfl | hrest
    · exact .inl (hfd.resolve_right (not_not_intro hcb))
    · exact .inr ((Tick.ahead_events rfl).mpr hrest)

theorem advances_call {cbs : TreeMap Int Cb} {k : Tick} (hwalk : k.walk = .callbacks (some i) erased)
    (hrunning : k.running = none) : Advances cbs (some i) k { k with running := some i } where
  customEvents := rfl
  evs := rfl
  listed := by
    unfold Tick.Listed
    rw [hwalk]
    trivial
  ahead := by
    intro fd h
    exact (Tick.ahead_idle hwalk hrunning).mpr (h.le hwalk)
  passes := by
    intro fd _ _ hahead
    rcases (hahead.le hwalk).eq_or_lt with rfl | hlt
    · exact .inl rfl
    · exact .inr (Tick.ahead_of_lt hwalk hlt)

theorem wait_turn (s : Polling Cb) (result : EpollWait) (htick : s.tick = none) :
    Turn s (.wait result) (s.wait result).1 (s.wait result).2 := by
  unfold Polling.wait
  split
  · rename_i hevents
    have hturn := Turn.failed htick hevents
    rwa [← htick] at hturn
  · refine .polled _ htick rfl ?_ ?_
    · split
      · intro x hx
        exact TreeMap.mem_toList_iff_getElem?_eq_some.mp hx
      · trivial
    · intro fd hcb hcur
      split
      · rw [Tick.ahead_events rfl, TreeMap.map_fst_toList_eq_keys]
        exact TreeMap.mem_keys.mpr hcur
      · obtain ⟨j, hfirst, hle⟩ := OrderedMap.first_le hcb
        rw [hfirst]
        exact (Tick.ahead_idle rfl rfl).mpr (Std.isLE_compare.mp hle)

theorem visit_turn {s : Polling Cb} {k : Tick} (htick : s.tick = some k) (hrunning : k.running = none)
    (hlisted : k.Listed) (h : s.visit k = some (s', es)) : Turn s .visit s' es := by
  unfold Polling.visit at h
  split at h
  · rename_i hwalk
    cases h
    refine .ended htick fun fd hahead => ?_
    rw [Tick.ahead_events hwalk] at hahead
    cases hahead
  · rename_i fd events rest hwalk
    split at h
    · rename_i cb hcb
      cases h
      refine .invoked htick hcb ?_ ?_ (advances_rest hwalk hlisted (.inl rfl))
      · unfold Tick.Listed at hlisted
        rw [hwalk] at hlisted
        exact hlisted _ (.head _)
      · rw [Tick.ahead_events hwalk]
        exact .head _
    · rename_i hcb
      cases h
      exact .advanced htick (advances_rest hwalk hlisted (.inr (by simpa using hcb)))
  · rename_i hwalk
    cases h
    exact .ended htick fun fd => Tick.not_ahead_end hwalk
  · rename_i fd erased hwalk
    split at h
    · cases h
    · rename_i cb hcb
      split at h
      · rename_i events hcur
        cases h
        refine .invoked htick hcb hcur ?_ (advances_call hwalk hrunning)
        exact (Tick.ahead_idle hwalk hrunning).mpr (Int.le_refl _)
      · rename_i hcur
        cases h
        obtain ⟨customEvents, evs, walk, running⟩ := k
        cases hrunning
        refine .advanced htick (advances_next hwalk ?_)
        rintro _ hmem _ rfl
        rw [TreeMap.mem_iff_isSome_getElem?, hcur] at hmem
        cases hmem

theorem ret_turn {s : Polling Cb} {k : Tick} (htick : s.tick = some k) (hrunning : k.running = some fd)
    (hlisted : k.Listed) (h : s.ret k = some s') : Turn s .ret s' [] := by
  unfold Polling.ret at h
  split at h
  · rename_i hwalk
    cases h
    have hsame : ∀ fd', Tick.Ahead { k with running := none } fd' ↔ k.Ahead fd' := fun fd' =>
      (Tick.ahead_events (k := { k with running := none }) hwalk).trans (Tick.ahead_events hwalk).symm
    refine .advanced htick ⟨rfl, rfl, hlisted, fun fd' => (hsame fd').mp, ?_⟩
    intro fd' _ _ h
    exact .inr ((hsame fd').mpr h)
  · rename_i i hwalk
    cases h
    refine .advanced htick (advances_next hwalk ?_)
    rintro _ _ hahead rfl
    exact Int.lt_irrefl _ ((Tick.ahead_running hwalk hrunning).mp hahead)
  · cases h

def Polling.Listed (s : Polling Cb) : Prop := ∀ k ∈ s.tick, k.Listed

theorem polling_turn (hlisted : s.Listed) (hs : (polling Cb).step s a = some (s', es)) : Turn s a s' es := by
  cases htick : s.tick with
  | none =>
    simp only [polling, htick] at hs
    cases a with
    | call c =>
      cases hs
      have hturn := Turn.call (performs s.poller c)
      rwa [htick] at hturn
    | wait result =>
      obtain ⟨rfl, rfl⟩ := Prod.ext_iff.mp (Option.some.inj hs)
      exact wait_turn s result htick
    | _ => cases hs
  | some k =>
    simp only [polling, htick] at hs
    have hk := hlisted k htick
    cases a with
    | call c =>
      cases hrunning : k.running with
      | none => simp [hrunning] at hs
      | some fd =>
        simp only [hrunning] at hs
        cases hs
        have hturn := Turn.call (s := s) (performs s.poller c)
        rwa [htick] at hturn
    | wait => cases hs
    | visit =>
      cases hrunning : k.running with
      | none =>
        simp only [hrunning] at hs
        exact visit_turn htick hrunning hk hs
      | some fd => simp [hrunning] at hs
    | ret =>
      cases hrunning : k.running with
      | none => simp [hrunning] at hs
      | some fd =>
        simp only [hrunning, Option.map_eq_some_iff] at hs
        obtain ⟨s', hret, heq⟩ := hs
        cases heq
        exact ret_turn htick hrunning hk hret

theorem Turn.listed (h : Turn s a s' es) (hlisted : s.Listed) : s'.Listed := by
  intro k hk
  cases h with
  | call =>
    obtain ⟨k', hk', rfl⟩ := Option.map_eq_some_iff.mp hk
    exact (hlisted k' hk').note _
  | polled k' _ _ hk' =>
    cases hk
    exact hk'
  | invoked _ _ _ _ hadvances =>
    cases hk
    exact hadvances.listed
  | advanced _ hadvances =>
    cases hk
    exact hadvances.listed
  | failed => cases hk
  | ended => cases hk

-- ---------------------------------------------------------------------------
-- A tick as a run
-- ---------------------------------------------------------------------------

def PollEv.call? : PollEv Cb → Option (Int × Events)
  | .invoked fd _ events => some (fd, events)
  | _ => none

def PollEv.post? : PollEv Cb → Option (Int × Events)
  | .posted fd events => some (fd, events)
  | _ => none

def Replays (s : Polling Cb) (d : Dispatch Cb) (s' : Polling Cb) (d' : Dispatch Cb) : Prop :=
  ∃ tr, (polling Cb).Steps Machine.anyStep s tr s' ∧ d'.calls = d.calls ++ tr.filterMap PollEv.call? ∧
    d'.accepted = d.accepted ++ tr.filterMap PollEv.post?

theorem Replays.refl : Replays s d s d := ⟨[], .refl, (List.append_nil _).symm, (List.append_nil _).symm⟩

theorem Replays.trans (h : Replays s d s' d') (h' : Replays s' d' s'' d'') : Replays s d s'' d'' := by
  obtain ⟨tr, hsteps, hcalls, haccepted⟩ := h
  obtain ⟨tr', hsteps', hcalls', haccepted'⟩ := h'
  refine ⟨tr ++ tr', hsteps.trans hsteps', ?_, ?_⟩
  · rw [hcalls', hcalls, List.filterMap_append, List.append_assoc]
  · rw [haccepted', haccepted, List.filterMap_append, List.append_assoc]

theorem Replays.one (a : PollAct Cb) (es : List (PollEv Cb)) (h : (polling Cb).step s a = some (s', es))
    (hcalls : d'.calls = d.calls ++ es.filterMap PollEv.call?)
    (haccepted : d'.accepted = d.accepted ++ es.filterMap PollEv.post?) : Replays s d s' d' :=
  ⟨es, .one trivial h, hcalls, haccepted⟩

theorem run_perform (d : Dispatch Cb) (c : PollerCall Cb) : d.run c = ⟨(d.poller.perform c).1,
    d.calls ++ (d.poller.perform c).2.filterMap PollEv.call?,
    d.accepted ++ (d.poller.perform c).2.filterMap PollEv.post?⟩ := by
  cases c with
  | notifyEvents fd events =>
    simp only [Dispatch.run, RePoller.perform]
    rcases d.poller.notifyEvents fd events with ⟨p, _ | _⟩ <;> simp [PollEv.call?, PollEv.post?]
  | setReadyCallback fd cb =>
    simp only [Dispatch.run, RePoller.perform]
    rcases d.poller.setReadyCallback fd cb with ⟨p, _ | _⟩ <;> simp [PollEv.call?, PollEv.post?]
  | cancle fd => simp [Dispatch.run, RePoller.perform, PollEv.call?, PollEv.post?]

theorem replays_calls {cs : List (PollerCall Cb)} {k : Tick} (hrunning : k.running = some fd)
    (hnote : ∀ c ∈ cs, k.note c = k) (d : Dispatch Cb) :
    Replays ⟨d.poller, some k⟩ d ⟨(cs.foldl Dispatch.run d).poller, some k⟩
      (cs.foldl Dispatch.run d) := by
  induction cs generalizing d with
  | nil => exact .refl
  | cons c cs ih =>
    have hstep : Replays ⟨d.poller, some k⟩ d ⟨(d.run c).poller, some k⟩ (d.run c) := by
      rw [run_perform]
      refine .one (.call c) (d.poller.perform c).2 ?_ rfl rfl
      simp only [polling, hrunning]
      rw [hnote c (.head _)]
    exact hstep.trans (ih (fun c hc => hnote c (.tail _ hc)) (d.run c))

theorem replays_invoke {B : Behaviour Cb} {d : Dispatch Cb} {k k' : Tick} {cb : Cb}
    (hvisit : (polling Cb).step ⟨d.poller, some k⟩ .visit =
      some (⟨d.poller, some k'⟩, [.invoked fd cb events]))
    (hrunning : k'.running = some fd) (hnote : ∀ c ∈ B d.calls cb events, k'.note c = k') :
    Replays ⟨d.poller, some k⟩ d ⟨(d.invoke B fd cb events).poller, some k'⟩ (d.invoke B fd cb events) := by
  have hcalled : Replays ⟨d.poller, some k⟩ d ⟨d.poller, some k'⟩
      { d with calls := d.calls ++ [(fd, events)] } :=
    .one _ _ hvisit rfl (List.append_nil _).symm
  exact hcalled.trans (replays_calls hrunning hnote { d with calls := d.calls ++ [(fd, events)] })

theorem replays_traverseEvents (B : Behaviour Cb) (l : List (Int × Events)) (d : Dispatch Cb)
    (customEvents : TreeMap Int Events) (evs : List (Int × Events)) :
    Replays ⟨d.poller, some ⟨customEvents, evs, .events l, none⟩⟩ d
      ⟨(traverseEvents B l d).poller, none⟩ (traverseEvents B l d) := by
  induction l generalizing d with
  | nil => exact .one .visit [.ended] rfl (List.append_nil _).symm (List.append_nil _).symm
  | cons x rest ih =>
    obtain ⟨fd, events⟩ := x
    rw [traverseEvents]
    split
    · rename_i cb hcb
      have hvisit : (polling Cb).step ⟨d.poller, some ⟨customEvents, evs, .events ((fd, events) :: rest), none⟩⟩
          .visit = some (⟨d.poller, some ⟨customEvents, evs, .events rest, some fd⟩⟩,
            [.invoked fd cb events]) := by
        simp only [polling, Polling.visit, hcb]
      have hret : Replays ⟨(d.invoke B fd cb events).poller, some ⟨customEvents, evs, .events rest, some fd⟩⟩
          (d.invoke B fd cb events)
          ⟨(d.invoke B fd cb events).poller, some ⟨customEvents, evs, .events rest, none⟩⟩
          (d.invoke B fd cb events) :=
        .one .ret [] rfl (List.append_nil _).symm (List.append_nil _).symm
      exact ((replays_invoke hvisit rfl fun _ _ => rfl).trans hret).trans (ih (d.invoke B fd cb events))
    · rename_i hcb
      have hvisit : Replays ⟨d.poller, some ⟨customEvents, evs, .events ((fd, events) :: rest), none⟩⟩ d
          ⟨d.poller, some ⟨customEvents, evs, .events rest, none⟩⟩ d := by
        refine .one .visit [] ?_ (List.append_nil _).symm (List.append_nil _).symm
        simp only [polling, Polling.visit, hcb]
      exact hvisit.trans (ih d)

theorem replays_traverseCallbacks (B : Behaviour Cb) (customEvents : TreeMap Int Events)
    (evs : List (Int × Events)) {d d' : Dispatch Cb}
    (h : traverseCallbacks B (mergeEvents customEvents evs) fuel iter d = .ok d') :
    Replays ⟨d.poller, some ⟨customEvents, evs, .callbacks iter false, none⟩⟩ d ⟨d'.poller, none⟩ d' := by
  induction fuel generalizing iter d with
  | zero =>
    cases iter with
    | none =>
      cases h
      exact .one .visit [.ended] rfl (List.append_nil _).symm (List.append_nil _).symm
    | some fd => cases h
  | succ fuel ih =>
    cases iter with
    | none =>
      cases h
      exact .one .visit [.ended] rfl (List.append_nil _).symm (List.append_nil _).symm
    | some fd =>
      rw [traverseCallbacks] at h
      split at h
      · cases h
      rename_i cb hcb
      split at h
      · rename_i hcur
        refine Replays.trans (.one .visit [] ?_ (List.append_nil _).symm (List.append_nil _).symm) (ih h)
        simp only [polling, Polling.visit, hcb, Tick.currentEventsMap, hcur]
      · rename_i events hcur
        split at h
        · cases h
        rename_i hcancle
        have hvisit : (polling Cb).step ⟨d.poller, some ⟨customEvents, evs, .callbacks (some fd) false, none⟩⟩
            .visit = some (⟨d.poller, some ⟨customEvents, evs, .callbacks (some fd) false, some fd⟩⟩,
              [.invoked fd cb events]) := by
          simp only [polling, Polling.visit, hcb, Tick.currentEventsMap, hcur]
        have hnote : ∀ c ∈ B d.calls cb events,
            Tick.note ⟨customEvents, evs, .callbacks (some fd) false, some fd⟩ c =
            ⟨customEvents, evs, .callbacks (some fd) false, some fd⟩ := by
          intro c hc
          have hother := List.any_eq_false.mp (Bool.eq_false_iff.mpr hcancle) c hc
          simp only [Tick.note, Bool.eq_false_iff.mpr hother, Bool.or_false]
        have hret : Replays
            ⟨(d.invoke B fd cb events).poller, some ⟨customEvents, evs, .callbacks (some fd) false, some fd⟩⟩
            (d.invoke B fd cb events)
            ⟨(d.invoke B fd cb events).poller, some ⟨customEvents, evs,
              .callbacks (OrderedMap.next (d.invoke B fd cb events).poller.m_callbacks fd) false, none⟩⟩
            (d.invoke B fd cb events) :=
          .one .ret [] rfl (List.append_nil _).symm (List.append_nil _).symm
        exact ((replays_invoke hvisit rfl hnote).trans hret).trans (ih h)

/-- What `work` does is a run of the machine from one tick's start to its end. -/
theorem work_replays {B : Behaviour Cb} {p : RePoller Cb} {d : Dispatch Cb}
    (h : p.work B fuel timeoutMsec wait = .ok d) : Replays ⟨p, none⟩ ⟨p, [], []⟩ ⟨d.poller, none⟩ d := by
  unfold RePoller.work at h
  dsimp only at h
  generalize hresult : wait (p.usedTimeoutMsec timeoutMsec) = result at h
  cases hevents : result.events with
  | none =>
    rw [hevents] at h
    cases h
    refine .one (.wait result) [.failed] ?_ rfl rfl
    simp only [polling, Polling.wait, hevents]
  | some evs =>
    rw [hevents] at h
    dsimp only at h
    have hwait (walk : Walk) (hwalk : walk = if p.m_customEvents.size < p.m_callbacks.size
        then .events (mergeEvents p.m_customEvents evs).toList
        else .callbacks (OrderedMap.first p.m_callbacks) false) :
        Replays ⟨p, none⟩ ⟨p, [], []⟩ ⟨p.begin.poller, some ⟨p.m_customEvents, evs, walk, none⟩⟩ p.begin := by
      refine .one (.wait result) [.polled evs] ?_ rfl rfl
      simp only [polling, Polling.wait, hevents, hwalk]
    split at h
    · rename_i hsize
      cases h
      exact (hwait _ (if_pos hsize).symm).trans (replays_traverseEvents B _ p.begin p.m_customEvents evs)
    · rename_i hsize
      exact (hwait _ (if_neg hsize).symm).trans (replays_traverseCallbacks B p.m_customEvents evs h)

-- ---------------------------------------------------------------------------
-- What is posted is passed on
-- ---------------------------------------------------------------------------

def Calm (fd : Int) (e : PollEv Cb) : Prop := (∀ evs, e ≠ .polled evs) ∧ e ≠ .cancled fd

/-- `events` was posted for `fd`, and the next tick is to pass it on. -/
def Pending (fd : Int) (events : Events) : List (PollEv Cb) → Prop :=
  Since (Calm fd) fun _ e => e = .posted fd events

def Taken (fd : Int) (events : Events) : List (PollEv Cb) → Prop :=
  Since (Calm fd) fun t e => (∃ evs, e = .polled evs) ∧ Pending fd events t

def Invoked (fd : Int) : List (PollEv Cb) → Prop :=
  Since (fun e => ∀ evs, e ≠ .polled evs) fun _ e => ∃ cb events, e = .invoked fd cb events

def Delivers (t : List (PollEv Cb)) : PollEv Cb → Prop
  | .invoked fd _ m => ∀ events, Taken fd events t → Covers m events
  | .ended => ∀ fd events, Taken fd events t → Invoked fd t
  | _ => True

/-- What `notifyEvents` accepted for a descriptor that stays registered is in
the mask that the next tick, unless its wait fails, passes to the callback. -/
def Delivered (tr : List (PollEv Cb)) : Prop := Always Delivers tr

/-- A post has all bits of what is pending for its descriptor, and no wait fails
while something is pending for a registered descriptor. -/
def KeepsPending (s : Polling Cb) : PollAct Cb → Prop
  | .call (.notifyEvents fd events) => fd ∈ s.poller.m_callbacks →
    (s.poller.m_customEvents[fd]?).all fun m => Covers events m
  | .wait .failed => ∀ fd ∈ s.poller.m_callbacks.keys, fd ∉ s.poller.m_customEvents
  | _ => True

instance (s : Polling Cb) : DecidablePred (KeepsPending s)
  | .call (.notifyEvents fd events) => inferInstanceAs (Decidable (fd ∈ s.poller.m_callbacks →
      (s.poller.m_customEvents[fd]?).all fun m => Covers events m))
  | .wait .failed => inferInstanceAs (Decidable (∀ fd ∈ s.poller.m_callbacks.keys, fd ∉ s.poller.m_customEvents))
  | .call (.setReadyCallback ..) | .call (.cancle _) | .wait .interrupted | .wait (.ready _) | .visit | .ret =>
    inferInstanceAs (Decidable True)

def Holds (masks : TreeMap Int Events) (fd : Int) (events : Events) : Prop :=
  ∃ m, masks[fd]? = some m ∧ Covers m events

structure Posts (tr : List (PollEv Cb)) (s : Polling Cb) : Prop where
  listed : s.Listed
  delivered : Delivered tr
  pending : ∀ fd events, Pending fd events tr →
    fd ∈ s.poller.m_callbacks ∧ Holds s.poller.m_customEvents fd events
  taken : ∀ k ∈ s.tick, ∀ fd events, Taken fd events tr →
    fd ∈ s.poller.m_callbacks ∧ Holds k.customEvents fd events ∧ (k.Ahead fd ∨ Invoked fd tr)

theorem pending_snoc {fd : Int} {t : List (PollEv Cb)} {e : PollEv Cb} : Pending fd events (t ++ [e]) ↔
    e = .posted fd events ∨ Calm fd e ∧ Pending fd events t := since_snoc

theorem taken_snoc {fd : Int} {t : List (PollEv Cb)} {e : PollEv Cb} : Taken fd events (t ++ [e]) ↔
    (∃ evs, e = .polled evs) ∧ Pending fd events t ∨ Calm fd e ∧ Taken fd events t := since_snoc

theorem invoked_snoc {fd : Int} {e : PollEv Cb} : Invoked fd (tr ++ [e]) ↔
    (∃ cb events, e = .invoked fd cb events) ∨ (∀ evs, e ≠ .polled evs) ∧ Invoked fd tr := since_snoc

theorem Holds.merged {k : Tick} (h : Holds k.customEvents fd events) : Holds k.currentEventsMap fd events := by
  obtain ⟨m, hm, hcovers⟩ := h
  refine ⟨_, ?_, (covers_foldl (masks k.evs fd) m).trans hcovers⟩
  rw [Tick.currentEventsMap, getElem?_mergeEvents, hm]
  rfl

theorem Posts.pending_of {p : RePoller Cb} {e : PollEv Cb} (h : Posts tr s)
    (hpost : ∀ fd events, e ≠ .posted fd events)
    (hcbs : ∀ fd, Calm fd e → fd ∈ s.poller.m_callbacks → fd ∈ p.m_callbacks)
    (hcustom : p.m_customEvents = s.poller.m_customEvents) (fd : Int) (events : Events)
    (hpending : Pending fd events (tr ++ [e])) : fd ∈ p.m_callbacks ∧ Holds p.m_customEvents fd events := by
  rw [pending_snoc] at hpending
  obtain ⟨hcalm, hpending⟩ := hpending.resolve_left (hpost fd events)
  obtain ⟨hcb, hholds⟩ := h.pending fd events hpending
  rw [hcustom]
  exact ⟨hcbs fd hcalm hcb, hholds⟩

theorem Posts.taken_of {cbs : TreeMap Int Cb} {k k' : Tick} {e : PollEv Cb} (h : Posts tr s)
    (hwait : ∀ evs, e ≠ .polled evs)
    (hk : s.tick = some k) (hcbs : ∀ fd, Calm fd e → fd ∈ s.poller.m_callbacks → fd ∈ cbs)
    (hcustom : k'.customEvents = k.customEvents)
    (hpasses : ∀ fd, fd ∈ s.poller.m_callbacks → fd ∈ k.currentEventsMap → k.Ahead fd →
      (∃ cb events, e = .invoked fd cb events) ∨ k'.Ahead fd)
    (fd : Int) (events : Events) (htaken : Taken fd events (tr ++ [e])) :
    fd ∈ cbs ∧ Holds k'.customEvents fd events ∧ (k'.Ahead fd ∨ Invoked fd (tr ++ [e])) := by
  rw [taken_snoc] at htaken
  obtain ⟨hcalm, htaken⟩ := htaken.resolve_left fun h => hwait _ h.1.choose_spec
  obtain ⟨hcb, hholds, hreached⟩ := h.taken k hk fd events htaken
  rw [hcustom, invoked_snoc]
  refine ⟨hcbs fd hcalm hcb, hholds, ?_⟩
  rcases hreached with hahead | hinvoked
  · obtain ⟨m, hm, -⟩ := hholds.merged
    have hcur : fd ∈ k.currentEventsMap := OrderedMap.mem_of_eq_some hm
    rcases hpasses fd hcb hcur hahead with hcalled | hahead
    · exact .inr (.inl hcalled)
    · exact .inl hahead
  · exact .inr (.inr ⟨hwait, hinvoked⟩)

theorem Posts.call {s : Polling Cb} (h : Posts tr s) (hok : KeepsPending s (.call c))
    (hp : Performs s.poller c p es) : Posts (tr ++ es) ⟨p, s.tick.map (Tick.note · c)⟩ := by
  have hlisted := (Turn.call hp).listed h.listed
  have htick {cbs : TreeMap Int Cb} {e : PollEv Cb} (hwait : ∀ evs, e ≠ .polled evs)
      (hcbs : ∀ fd, Calm fd e → fd ∈ s.poller.m_callbacks → fd ∈ cbs) :
      ∀ k ∈ s.tick.map (Tick.note · c), ∀ fd events, Taken fd events (tr ++ [e]) →
        fd ∈ cbs ∧ Holds k.customEvents fd events ∧ (k.Ahead fd ∨ Invoked fd (tr ++ [e])) := by
    intro k hk
    obtain ⟨k', hk', rfl⟩ := Option.map_eq_some_iff.mp hk
    refine h.taken_of hwait hk' hcbs (note_customEvents k' c) ?_
    intro fd _ _ hahead
    exact .inr ((note_ahead k' c fd).mpr hahead)
  cases hp with
  | @posted fd events hcb =>
    rw [TreeMap.contains_iff_mem] at hcb
    refine ⟨hlisted, h.delivered.snoc trivial, ?_, htick nofun fun _ _ => id⟩
    intro fd' events' hpending
    unfold Holds
    dsimp only
    rw [TreeMap.getElem?_insert]
    rcases pending_snoc.mp hpending with heq | ⟨-, hpending⟩
    · cases heq
      exact ⟨hcb, events, by simp, .refl events⟩
    · obtain ⟨hcb', m, hm, hcovers⟩ := h.pending fd' events' hpending
      refine ⟨hcb', ?_⟩
      rcases eq_or_ne fd fd' with rfl | hne
      · have hkeeps := hok hcb
        rw [hm, Option.all_some, decide_eq_true_eq] at hkeeps
        exact ⟨events, by simp, hkeeps.trans hcovers⟩
      · exact ⟨m, by simp [hne, hm], hcovers⟩
  | @registered fd cb =>
    have hcbs (fd') (_ : Calm fd' (.registered fd : PollEv Cb)) (hmem : fd' ∈ s.poller.m_callbacks) :
        fd' ∈ s.poller.m_callbacks.insert fd cb := by
      rw [TreeMap.mem_insert]
      exact .inr hmem
    exact ⟨hlisted, h.delivered.snoc trivial, h.pending_of nofun hcbs rfl, htick nofun hcbs⟩
  | @cancled fd =>
    have hcbs (fd') (hcalm : Calm fd' (.cancled fd : PollEv Cb)) (hmem : fd' ∈ s.poller.m_callbacks) :
        fd' ∈ s.poller.m_callbacks.erase fd := by
      rw [TreeMap.mem_erase]
      refine ⟨?_, hmem⟩
      rintro heq
      rw [Std.LawfulEqCmp.compare_eq_iff_eq] at heq
      exact hcalm.2 (by rw [heq])
    exact ⟨hlisted, h.delivered.snoc trivial, h.pending_of nofun hcbs rfl, htick nofun hcbs⟩
  | refused =>
    rw [List.append_nil]
    refine ⟨hlisted, h.delivered, h.pending, ?_⟩
    intro k hk
    obtain ⟨k', hk', rfl⟩ := Option.map_eq_some_iff.mp hk
    simpa using h.taken k' hk'

theorem no_tick {P : Tick → Prop} : ∀ k ∈ (none : Option Tick), P k := by
  intro k hk
  cases hk

theorem Posts.turn (h : Posts tr s) (hok : KeepsPending s a) (hs : Turn s a s' es) : Posts (tr ++ es) s' := by
  have hlisted := hs.listed h.listed
  cases hs with
  | call hp => exact h.call hok hp
  | @failed result htick hevents =>
    refine ⟨hlisted, h.delivered.snoc trivial, ?_, no_tick⟩
    intro fd events hpending
    obtain ⟨-, hpending⟩ := (pending_snoc.mp hpending).resolve_left nofun
    obtain ⟨hcb, m, hm, -⟩ := h.pending fd events hpending
    cases result with
    | failed =>
      exact (hok fd (TreeMap.mem_keys.mpr hcb) (OrderedMap.mem_of_eq_some hm)).elim
    | _ => cases hevents
  | polled k htick hcustom _ hahead =>
    refine ⟨hlisted, h.delivered.snoc trivial, ?_, ?_⟩
    · intro fd events hpending
      obtain ⟨hcalm, -⟩ := (pending_snoc.mp hpending).resolve_left nofun
      exact (hcalm.1 _ rfl).elim
    · rintro _ ⟨⟩ fd events htaken
      rcases taken_snoc.mp htaken with ⟨-, hpending⟩ | ⟨hcalm, -⟩
      · obtain ⟨hcb, hholds⟩ := h.pending fd events hpending
        rw [← hcustom] at hholds
        obtain ⟨m, hm, -⟩ := hholds.merged
        exact ⟨hcb, hholds, .inl (hahead fd hcb (OrderedMap.mem_of_eq_some hm))⟩
      · exact (hcalm.1 _ rfl).elim
  | @invoked k fd cb m k' hk hcb hm hahead hadvances =>
    refine ⟨hlisted, h.delivered.snoc ?_, h.pending_of nofun (fun _ _ => id) rfl, ?_⟩
    · intro events htaken
      obtain ⟨-, hholds, -⟩ := h.taken k hk fd events htaken
      obtain ⟨m', hm', hcovers⟩ := hholds.merged
      cases hm.symm.trans hm'
      exact hcovers
    · rintro _ ⟨⟩
      refine h.taken_of nofun hk (fun _ _ => id) hadvances.customEvents ?_
      intro fd' hcb hcur hahead
      rcases hadvances.passes fd' hcb hcur hahead with heq | hahead
      · cases heq
        exact .inl ⟨cb, m, rfl⟩
      · exact .inr hahead
  | advanced hk hadvances =>
    rw [List.append_nil]
    refine ⟨hlisted, h.delivered, h.pending, ?_⟩
    rintro _ ⟨⟩ fd events htaken
    obtain ⟨hcb, hholds, hreached⟩ := h.taken _ hk fd events htaken
    rw [hadvances.customEvents]
    refine ⟨hcb, hholds, hreached.imp_left fun hahead => ?_⟩
    obtain ⟨m, hm, -⟩ := hholds.merged
    have hcur : fd ∈ Tick.currentEventsMap _ := OrderedMap.mem_of_eq_some hm
    exact (hadvances.passes fd hcb hcur hahead).resolve_left nofun
  | ended hk hall =>
    refine ⟨hlisted, h.delivered.snoc ?_, h.pending_of nofun (fun _ _ => id) rfl, no_tick⟩
    intro fd events htaken
    exact (h.taken _ hk fd events htaken).2.2.resolve_left (hall fd)

theorem posts_run (h : (polling Cb).RunIf KeepsPending tr s) : Posts tr s := by
  refine h.invariant (I := Posts) ⟨?_, always_nil, ?_, no_tick⟩ ?_
  · exact no_tick
  · intro fd events hpending
    exact (not_since_nil hpending).elim
  · intro tr s a s' es _ ih hok hs
    exact ih.turn hok (polling_turn ih.listed hs)

end

/-- In a run in which every post has all bits of what is pending for its
descriptor, and no wait fails while something is pending, what `notifyEvents`
accepts is delivered. -/
theorem rePoller_delivers_posts (Cb : Type) (tr : List (PollEv Cb)) (s : Polling Cb)
    (h : (polling Cb).RunIf KeepsPending tr s) : Delivered tr := (posts_run h).delivered

theorem rePoller_delivers_posts_run : ∃ tr s, (polling Unit).RunIf KeepsPending tr s ∧
    tr = [.registered 7, .posted 7 1, .posted 7 3, .polled [(7, 4)], .invoked 7 () 7, .posted 7 8, .ended,
      .polled [], .invoked 7 () 8, .ended] ∧ Delivered tr := by
  have hr : (((polling Unit).only KeepsPending).replay ⟨⟨∅, ∅, false⟩, none⟩
      [.call (.setReadyCallback 7 (some ())), .call (.notifyEvents 7 1), .call (.notifyEvents 7 3),
        .wait (.ready [(7, 4)]), .visit, .call (.notifyEvents 7 8), .ret, .visit,
        .wait .interrupted, .visit, .ret, .visit]).isSome := rfl
  have hrun := Machine.steps_of_replay_only (Option.some_get hr).symm
  exact ⟨_, _, hrun, rfl, rePoller_delivers_posts Unit _ _ hrun⟩

/-- The second post overwrites the first. -/
theorem rePoller_overwrites_post : ∃ tr s, (polling Unit).Run tr s ∧
    tr = [.registered 7, .posted 7 1, .posted 7 2, .polled [], .invoked 7 () 2] ∧ ¬Delivered tr := by
  have hr : ((polling Unit).replay ⟨⟨∅, ∅, false⟩, none⟩
      [.call (.setReadyCallback 7 (some ())), .call (.notifyEvents 7 1), .call (.notifyEvents 7 2),
        .wait .interrupted, .visit]).isSome := rfl
  refine ⟨_, _, Machine.steps_of_replay (Option.some_get hr).symm, rfl, ?_⟩
  intro h
  have hcovers := h [.registered 7, .posted 7 1, .posted 7 2, .polled []] _ [] rfl 1 ?_
  · exact absurd hcovers (by decide)
  · refine taken_snoc (t := [.registered 7, .posted 7 1, .posted 7 2]).mpr (.inl ⟨⟨[], rfl⟩, ?_⟩)
    refine pending_snoc (t := [.registered 7, .posted 7 1]).mpr (.inr ⟨⟨nofun, nofun⟩, ?_⟩)
    exact pending_snoc (t := [.registered 7]).mpr (.inl rfl)

-- ---------------------------------------------------------------------------
-- What is passed on belongs to the registration
-- ---------------------------------------------------------------------------

section

variable {Cb : Type}

def PostedSince (fd : Int) (events : Events) : List (PollEv Cb) → Prop :=
  Since (· ≠ .cancled fd) fun _ e => e = .posted fd events

def LastPolled (evs : List (Int × Events)) : List (PollEv Cb) → Prop :=
  Since (fun e => ∀ evs', e ≠ .polled evs') fun _ e => e = .polled evs

/-- A callback gets what epoll reported for its descriptor and at most one
custom event, posted since the descriptor was last cancelled. -/
def Belongs (t : List (PollEv Cb)) : PollEv Cb → Prop
  | .invoked fd _ m => ∃ (custom : Option Events) (evs : List (Int × Events)),
      (∀ events ∈ custom, PostedSince fd events t) ∧ LastPolled evs t ∧
      orAll (custom.toList ++ masks evs fd) = some m
  | _ => True

def OwnEvents (tr : List (PollEv Cb)) : Prop := Always Belongs tr

/-- A callback is set for a descriptor that has none only when no custom event
waits for the descriptor, and the tick has none that it may still pass on. -/
def RegistersFresh (s : Polling Cb) : PollAct Cb → Prop
  | .call (.setReadyCallback fd (some _)) => fd ∉ s.poller.m_callbacks →
    fd ∉ s.poller.m_customEvents ∧ s.tick.all fun k => ¬(fd ∈ k.customEvents ∧ k.Ahead fd)
  | _ => True

instance (s : Polling Cb) : DecidablePred (RegistersFresh s)
  | .call (.setReadyCallback fd (some _)) => inferInstanceAs (Decidable (fd ∉ s.poller.m_callbacks →
      fd ∉ s.poller.m_customEvents ∧ s.tick.all fun k => ¬(fd ∈ k.customEvents ∧ k.Ahead fd)))
  | .call (.setReadyCallback _ none) | .call (.notifyEvents ..) | .call (.cancle _) | .wait _ | .visit | .ret =>
    inferInstanceAs (Decidable True)

structure Fresh (tr : List (PollEv Cb)) (s : Polling Cb) : Prop where
  listed : s.Listed
  own : OwnEvents tr
  waiting : ∀ fd ∈ s.poller.m_callbacks, ∀ events, s.poller.m_customEvents[fd]? = some events →
    PostedSince fd events tr
  polled : ∀ k ∈ s.tick, LastPolled k.evs tr
  taken : ∀ k ∈ s.tick, ∀ fd ∈ s.poller.m_callbacks, k.Ahead fd → ∀ events, k.customEvents[fd]? = some events →
    PostedSince fd events tr

theorem PostedSince.snoc {fd : Int} {e : PollEv Cb} (h : PostedSince fd events tr) (he : e ≠ .cancled fd) :
    PostedSince fd events (tr ++ [e]) := since_snoc.mpr (.inr ⟨he, h⟩)

theorem LastPolled.snoc {e : PollEv Cb} (h : LastPolled evs tr) (he : ∀ evs', e ≠ .polled evs') :
    LastPolled evs (tr ++ [e]) := since_snoc.mpr (.inr ⟨he, h⟩)

theorem Fresh.call {s : Polling Cb} (h : Fresh tr s) (hok : RegistersFresh s (.call c))
    (hp : Performs s.poller c p es) : Fresh (tr ++ es) ⟨p, s.tick.map (Tick.note · c)⟩ := by
  have hlisted := (Turn.call hp).listed h.listed
  have hpolled {e : PollEv Cb} (hwait : ∀ evs, e ≠ .polled evs) :
      ∀ k ∈ s.tick.map (Tick.note · c), LastPolled k.evs (tr ++ [e]) := by
    intro k hk
    obtain ⟨k', hk', rfl⟩ := Option.map_eq_some_iff.mp hk
    rw [note_evs]
    exact (h.polled k' hk').snoc hwait
  have htaken {cbs : TreeMap Int Cb} {e : PollEv Cb} (hcbs : ∀ fd ∈ cbs, fd ∈ s.poller.m_callbacks ∨
        ∀ k ∈ s.tick, fd ∈ k.customEvents → ¬k.Ahead fd) (he : ∀ fd ∈ cbs, e ≠ .cancled fd) :
      ∀ k ∈ s.tick.map (Tick.note · c), ∀ fd ∈ cbs, k.Ahead fd → ∀ events, k.customEvents[fd]? = some events →
        PostedSince fd events (tr ++ [e]) := by
    intro k hk fd hmem hahead events hevents
    obtain ⟨k', hk', rfl⟩ := Option.map_eq_some_iff.mp hk
    rw [note_ahead] at hahead
    rw [note_customEvents] at hevents
    rcases hcbs fd hmem with hcb | hbehind
    · exact (h.taken k' hk' fd hcb hahead events hevents).snoc (he fd hmem)
    · exact (hbehind k' hk' (OrderedMap.mem_of_eq_some hevents) hahead).elim
  cases hp with
  | @posted fd events hcb =>
    refine ⟨hlisted, h.own.snoc trivial, ?_, hpolled nofun, htaken (fun _ => .inl) nofun⟩
    intro fd' hmem events' hevents
    dsimp only at hevents
    rw [TreeMap.getElem?_insert] at hevents
    rcases eq_or_ne fd fd' with rfl | hne
    · simp only [Std.ReflCmp.compare_self, if_true] at hevents
      cases hevents
      exact since_snoc.mpr (.inl rfl)
    · simp only [Std.LawfulEqCmp.compare_eq_iff_eq, hne, if_false] at hevents
      exact (h.waiting fd' hmem events' hevents).snoc nofun
  | @registered fd cb =>
    have hold (fd') (hmem : fd' ∈ s.poller.m_callbacks.insert fd cb) : fd' ∈ s.poller.m_callbacks ∨
        fd' ∉ s.poller.m_customEvents ∧ ∀ k ∈ s.tick, fd' ∈ k.customEvents → ¬k.Ahead fd' := by
      refine or_iff_not_imp_left.mpr fun hnone => ?_
      rw [TreeMap.mem_insert, Std.LawfulEqCmp.compare_eq_iff_eq] at hmem
      obtain rfl := hmem.resolve_right hnone
      obtain ⟨hwaiting, htick⟩ := hok hnone
      refine ⟨hwaiting, ?_⟩
      intro k hk hcustom hahead
      have hk' := (Option.all_eq_true _ _).mp htick k hk
      simp [hcustom, hahead] at hk'
    refine ⟨hlisted, h.own.snoc trivial, ?_, hpolled nofun,
      htaken (fun fd' hmem => (hold fd' hmem).imp_right And.right) nofun⟩
    intro fd' hmem events hevents
    rcases hold fd' hmem with hcb | ⟨hwaiting, -⟩
    · exact (h.waiting fd' hcb events hevents).snoc nofun
    · exact (hwaiting (OrderedMap.mem_of_eq_some hevents)).elim
  | @cancled fd =>
    have hcbs (fd') (hmem : fd' ∈ s.poller.m_callbacks.erase fd) :
        fd' ∈ s.poller.m_callbacks ∧ (.cancled fd : PollEv Cb) ≠ .cancled fd' := by
      obtain ⟨hne, hmem⟩ := TreeMap.mem_erase.mp hmem
      refine ⟨hmem, ?_⟩
      rintro ⟨⟩
      exact hne Std.ReflCmp.compare_self
    refine ⟨hlisted, h.own.snoc trivial, ?_, hpolled nofun,
      htaken (fun fd' hmem => .inl (hcbs fd' hmem).1) fun fd' hmem => (hcbs fd' hmem).2⟩
    intro fd' hmem events hevents
    exact (h.waiting fd' (hcbs fd' hmem).1 events hevents).snoc (hcbs fd' hmem).2
  | refused =>
    rw [List.append_nil]
    refine ⟨hlisted, h.own, h.waiting, ?_, ?_⟩
    · intro k hk
      obtain ⟨k', hk', rfl⟩ := Option.map_eq_some_iff.mp hk
      rw [note_evs]
      exact h.polled k' hk'
    · intro k hk
      obtain ⟨k', hk', rfl⟩ := Option.map_eq_some_iff.mp hk
      simpa using h.taken k' hk'

theorem Fresh.turn {s : Polling Cb} (h : Fresh tr s) (hok : RegistersFresh s a) (hs : Turn s a s' es) :
    Fresh (tr ++ es) s' := by
  have hlisted := hs.listed h.listed
  cases hs with
  | call hp => exact h.call hok hp
  | failed =>
    refine ⟨hlisted, h.own.snoc trivial, ?_, no_tick, no_tick⟩
    intro fd _ events hevents
    simp at hevents
  | polled k htick hcustom =>
    refine ⟨hlisted, h.own.snoc trivial, ?_, ?_, ?_⟩
    · intro fd _ events hevents
      simp at hevents
    · rintro _ ⟨⟩
      exact since_snoc.mpr (.inl rfl)
    · rintro _ ⟨⟩ fd hmem _ events hevents
      rw [hcustom] at hevents
      exact (h.waiting fd hmem events hevents).snoc nofun
  | @invoked k fd cb m k' hk hcb hm hahead hadvances =>
    have hmem : fd ∈ s.poller.m_callbacks := OrderedMap.mem_of_eq_some hcb
    refine ⟨hlisted, h.own.snoc ⟨k.customEvents[fd]?, k.evs, ?_, h.polled k hk, ?_⟩, ?_, ?_, ?_⟩
    · intro events hevents
      exact h.taken k hk fd hmem hahead events hevents
    · rwa [Tick.currentEventsMap, getElem?_mergeEvents] at hm
    · intro fd' hmem' events hevents
      exact (h.waiting fd' hmem' events hevents).snoc nofun
    · rintro _ ⟨⟩
      rw [hadvances.evs]
      exact (h.polled k hk).snoc nofun
    · rintro _ ⟨⟩ fd' hmem' hahead' events hevents
      rw [hadvances.customEvents] at hevents
      exact (h.taken k hk fd' hmem' (hadvances.ahead fd' hahead') events hevents).snoc nofun
  | @advanced k k' _ hk hadvances =>
    rw [List.append_nil]
    refine ⟨hlisted, h.own, h.waiting, ?_, ?_⟩
    · rintro _ ⟨⟩
      rw [hadvances.evs]
      exact h.polled k hk
    · rintro _ ⟨⟩ fd' hmem' hahead'
      rw [hadvances.customEvents]
      exact h.taken k hk fd' hmem' (hadvances.ahead fd' hahead')
  | ended hk =>
    refine ⟨hlisted, h.own.snoc trivial, ?_, no_tick, no_tick⟩
    intro fd hmem events hevents
    exact (h.waiting fd hmem events hevents).snoc nofun

theorem fresh_run (h : (polling Cb).RunIf RegistersFresh tr s) : Fresh tr s := by
  refine h.invariant (I := Fresh) ⟨?_, always_nil, ?_, no_tick, no_tick⟩ ?_
  · exact no_tick
  · intro fd _ events hevents
    exact absurd hevents (by simp [polling])
  · intro tr s a s' es _ ih hok hs
    exact ih.turn hok (polling_turn ih.listed hs)

end

/-- In a run in which no callback is set for a descriptor while custom events of
an earlier registration wait for it, callbacks only get events of their own
registration. -/
theorem rePoller_keeps_events_apart (Cb : Type) (tr : List (PollEv Cb)) (s : Polling Cb)
    (h : (polling Cb).RunIf RegistersFresh tr s) : OwnEvents tr := (fresh_run h).own

theorem rePoller_keeps_events_apart_run : ∃ tr s, (polling Unit).RunIf RegistersFresh tr s ∧
    tr = [.registered 5, .registered 7, .posted 5 1, .polled [(7, 4)], .invoked 5 () 1, .cancled 7, .registered 7,
      .posted 7 8, .invoked 7 () 4, .ended, .polled [], .invoked 7 () 8, .ended] ∧ OwnEvents tr := by
  have hr : (((polling Unit).only RegistersFresh).replay ⟨⟨∅, ∅, false⟩, none⟩
      [.call (.setReadyCallback 5 (some ())), .call (.setReadyCallback 7 (some ())), .call (.notifyEvents 5 1),
        .wait (.ready [(7, 4)]), .visit, .call (.cancle 7), .call (.setReadyCallback 7 (some ())),
        .call (.notifyEvents 7 8), .ret, .visit, .ret, .visit,
        .wait .interrupted, .visit, .ret, .visit]).isSome := rfl
  have hrun := Machine.steps_of_replay_only (Option.some_get hr).symm
  exact ⟨_, _, hrun, rfl, rePoller_keeps_events_apart Unit _ _ hrun⟩

/-- The event posted for descriptor 7 before it was cancelled reaches the
callback that was set for it afterwards. -/
theorem rePoller_passes_stale_post : ∃ tr s, (polling Unit).Run tr s ∧
    tr = [.registered 7, .posted 7 1, .cancled 7, .registered 7, .polled [], .invoked 7 () 1] ∧ ¬OwnEvents tr := by
  have hr : ((polling Unit).replay ⟨⟨∅, ∅, false⟩, none⟩
      [.call (.setReadyCallback 7 (some ())), .call (.notifyEvents 7 1), .call (.cancle 7),
        .call (.setReadyCallback 7 (some ())), .wait .interrupted, .visit]).isSome := rfl
  refine ⟨_, _, Machine.steps_of_replay (Option.some_get hr).symm, rfl, ?_⟩
  intro h
  obtain ⟨custom, evs, hposted, hpolled, hmask⟩ :=
    h [.registered 7, .posted 7 1, .cancled 7, .registered 7, .polled []] _ [] rfl
  obtain rfl : evs = [] := by
    rcases since_snoc (t := [_, _, _, _]).mp hpolled with heq | ⟨hne, -⟩
    · cases heq
      rfl
    · exact (hne _ rfl).elim
  cases custom with
  | none => cases hmask
  | some events =>
    have hsince := hposted events rfl
    rcases since_snoc (t := [_, _, _, _]).mp hsince with heq | ⟨-, hsince⟩
    · cases heq
    rcases since_snoc (t := [_, _, _]).mp hsince with heq | ⟨-, hsince⟩
    · cases heq
    rcases since_snoc (t := [_, _]).mp hsince with heq | ⟨hne, -⟩
    · cases heq
    · exact hne rfl

end Andren.Network
