import Andren.Machine.OrderedMap
import Andren.Network.EventLoop
import Mathlib.Data.List.Forall2
import Mathlib.Data.Set.Finite.Lattice

/-!
# A processing step

`EventLoop::processEvents` walks over the registry of its thread while the
services it calls change it: their calls for keys of the same thread run inline.
What they add and what they delete elsewhere is harmless. The walk stands at an
entry while it processes it, so a service that is deleted from its own handler
takes the entry away under the walk (`processEvents_safe_iff`).
-/

namespace Andren.Network

open Machines
open Std (TreeMap)

/-- The calls that a service makes while it is processed, or a callback makes,
in their order. One that the loop refuses changes nothing and is left out, and a
null `before` is `done`. -/
inductive HandlerCalls
  | done
  | addService (service : EventsService) (next : HandlerCalls)
  | modService (service : EventsService) (next : HandlerCalls)
  | delService (service_key : BitVec 64) (before next : HandlerCalls)
  | findService (service_key : BitVec 64) (after next : HandlerCalls)

inductive StepEv
  | processed (key : Int) (service : EventsService)
  | stored (service : EventsService)
  | erased (key : Int)
  deriving DecidableEq

/-- A thread in its processing step. `iters` are the iterators it holds, the
innermost first; one to an erased entry is `none`. -/
structure ThreadLocal where
  m_services : TreeMap Int EventsService
  iters : List (Option Int)
  log : List StepEv

namespace ThreadLocal

def store (s : ThreadLocal) (service : EventsService) : ThreadLocal :=
  { s with
    m_services := s.m_services.insert service.m_key.toInt service
    log := s.log ++ [.stored service] }

def erase (s : ThreadLocal) (key : Int) : ThreadLocal where
  m_services := s.m_services.erase key
  iters := s.iters.map fun iter => if iter = some key then none else iter
  log := s.log ++ [.erased key]

def enter (s : ThreadLocal) (key : Int) (service : EventsService) : ThreadLocal :=
  { s with
    iters := [some key]
    log := s.log ++ [.processed key service] }

/-- What the calls do on thread `i`. Those for another thread are queued there.
`delService` uses what `find` gives it without a test. -/
def handle {n : BitVec 32} (i : Fin n.toNat) : HandlerCalls → ThreadLocal → Option ThreadLocal
  | .done, s => some s
  | .addService service next, s =>
    if EventLoop.slot n (.addService service) = some i then handle i next (s.store service)
    else handle i next s
  | .modService service next, s =>
    if EventLoop.slot n (.modService service) = some i then handle i next (s.store service)
    else handle i next s
  | .delService service_key before next, s =>
    if EventLoop.slot n (.delService service_key true) = some i then do
      let _ ← s.m_services[service_key.toInt]?
      let s ← handle i before { s with iters := some service_key.toInt :: s.iters }
      match s.iters with
      | some key :: iters => handle i next ({ s with iters := iters }.erase key)
      | _ => none
    else handle i next s
  | .findService service_key after next, s =>
    if EventLoop.slot n (.findService service_key) = some i then do
      let s ← handle i after s
      handle i next s
    else handle i next s

end ThreadLocal

/-- What a service does when it is processed may depend on all that the step has done. -/
abbrev Handlers := List StepEv → EventsService → HandlerCalls

inductive StepError
  | fuel
  /-- The walk advances from an entry that was erased. -/
  | erased
  /-- A closure used an iterator that is the end or was erased. -/
  | undefined

/-- The range-for over `m_services`, which stands at `iter`. -/
def traverseServices {n : BitVec 32} (i : Fin n.toNat) (B : Handlers) :
    Nat → Option Int → ThreadLocal → Except StepError ThreadLocal
  | _, none, s => .ok s
  | 0, some _, _ => .error .fuel
  | fuel + 1, some key, s =>
    match s.m_services[key]? with
    | none => .error .erased
    | some service =>
      match (s.enter key service).handle i (B s.log service) with
      | none => .error .undefined
      | some s =>
        if s.iters = [some key] then traverseServices i B fuel (OrderedMap.next s.m_services key) s
        else .error .erased

/-- `processEvents(i)`, up to the task for the next step that it adds. -/
def processEvents {n : BitVec 32} (i : Fin n.toNat) (B : Handlers) (fuel : Nat)
    (m_services : TreeMap Int EventsService) : Except StepError ThreadLocal :=
  traverseServices i B fuel (OrderedMap.first m_services) ⟨m_services, [], []⟩

-- ---------------------------------------------------------------------------
-- The calls without iterators
-- ---------------------------------------------------------------------------

section

variable {n : BitVec 32} {i : Fin n.toNat}

def HandlerCalls.apply (i : Fin n.toNat) : HandlerCalls → TreeMap Int EventsService → TreeMap Int EventsService
  | .done, t => t
  | .addService service next, t =>
    if EventLoop.slot n (.addService service) = some i then next.apply i (t.insert service.m_key.toInt service)
    else next.apply i t
  | .modService service next, t =>
    if EventLoop.slot n (.modService service) = some i then next.apply i (t.insert service.m_key.toInt service)
    else next.apply i t
  | .delService service_key before next, t =>
    if EventLoop.slot n (.delService service_key true) = some i then
      next.apply i ((before.apply i t).erase service_key.toInt)
    else next.apply i t
  | .findService service_key after next, t =>
    if EventLoop.slot n (.findService service_key) = some i then next.apply i (after.apply i t)
    else next.apply i t

/-- The calls delete no entry that is `held` and none that there is not; the
entry that a `delService` deletes is held during its callback. -/
def HandlerCalls.Keeps (i : Fin n.toNat) : HandlerCalls → List Int → TreeMap Int EventsService → Prop
  | .done, _, _ => True
  | .addService service next, held, t =>
    if EventLoop.slot n (.addService service) = some i then next.Keeps i held (t.insert service.m_key.toInt service)
    else next.Keeps i held t
  | .modService service next, held, t =>
    if EventLoop.slot n (.modService service) = some i then next.Keeps i held (t.insert service.m_key.toInt service)
    else next.Keeps i held t
  | .delService service_key before next, held, t =>
    if EventLoop.slot n (.delService service_key true) = some i then
      service_key.toInt ∈ t ∧ service_key.toInt ∉ held ∧ before.Keeps i (service_key.toInt :: held) t ∧
        next.Keeps i held ((before.apply i t).erase service_key.toInt)
    else next.Keeps i held t
  | .findService service_key after next, held, t =>
    if EventLoop.slot n (.findService service_key) = some i then
      after.Keeps i held t ∧ next.Keeps i held (after.apply i t)
    else next.Keeps i held t

def Fades (iters iters' : List (Option Int)) : Prop := List.Forall₂ (fun a b => b = a ∨ b = none) iters iters'

theorem Fades.refl (iters : List (Option Int)) : Fades iters iters := List.forall₂_same.mpr fun _ _ => .inl rfl

theorem Fades.trans {iters iters' iters'' : List (Option Int)} (h : Fades iters iters') (h' : Fades iters' iters'') :
    Fades iters iters'' := by
  induction h generalizing iters'' with
  | nil => exact h'
  | cons hab _ ih =>
    cases h' with
    | cons hbc hrest =>
      refine .cons ?_ (ih hrest)
      rcases hbc with rfl | rfl
      · exact hab
      · exact .inr rfl

theorem Fades.eq_of_fades {iters iters' : List (Option Int)} (h : Fades iters iters') (h' : Fades iters' iters) :
    iters' = iters := by
  induction h with
  | nil => rfl
  | cons hab _ ih =>
    cases h' with
    | cons hba hrest =>
      rw [ih hrest]
      rcases hab with rfl | rfl
      · rfl
      · rcases hba with rfl | rfl <;> rfl

theorem Fades.eq_of_between {iters iters' iters'' : List (Option Int)} (h : Fades iters iters')
    (h' : Fades iters' iters'') (heq : iters'' = iters) : iters' = iters := h.eq_of_fades (heq ▸ h')

theorem fades_erase (key : Int) (iters : List (Option Int)) :
    Fades iters (iters.map fun iter => if iter = some key then none else iter) := by
  refine List.forall₂_map_right_iff.mpr (List.forall₂_same.mpr fun iter _ => ?_)
  split
  · exact .inr rfl
  · exact .inl rfl

theorem handle_delService {s : ThreadLocal} {before next : HandlerCalls}
    (hi : EventLoop.slot n (.delService service_key true) = some i) :
    s.handle i (.delService service_key before next) = some s' ↔ service_key.toInt ∈ s.m_services ∧
      ∃ s₁ key iters, ThreadLocal.handle i before { s with iters := some service_key.toInt :: s.iters } = some s₁ ∧
        s₁.iters = some key :: iters ∧ ThreadLocal.handle i next ({ s₁ with iters := iters }.erase key) = some s' := by
  rw [OrderedMap.mem_iff_exists]
  simp only [ThreadLocal.handle, if_pos hi, Option.bind_eq_bind, Option.bind_eq_some_iff]
  constructor
  · rintro ⟨service, hservice, s₁, hbefore, hnext⟩
    split at hnext
    · rename_i key iters hiters
      exact ⟨⟨service, hservice⟩, s₁, key, iters, hbefore, hiters, hnext⟩
    · cases hnext
  · rintro ⟨⟨service, hservice⟩, s₁, key, iters, hbefore, hiters, hnext⟩
    exact ⟨service, hservice, s₁, hbefore, by simpa only [hiters] using hnext⟩

theorem handle_fades {calls : HandlerCalls} {s s' : ThreadLocal} (h : s.handle i calls = some s') :
    Fades s.iters s'.iters := by
  induction calls generalizing s s' with
  | done =>
    cases h
    exact .refl _
  | addService service next ih | modService service next ih =>
    simp only [ThreadLocal.handle] at h
    split at h
    · have hfades := ih h
      exact hfades
    · exact ih h
  | delService service_key before next ihbefore ihnext =>
    by_cases hi : EventLoop.slot n (.delService service_key true) = some i
    · obtain ⟨-, s₁, key, iters, hbefore, hiters, hnext⟩ := (handle_delService hi).mp h
      have hfades := ihbefore hbefore
      rw [hiters] at hfades
      cases hfades with
      | cons _ hfades => exact (Fades.trans hfades (fades_erase key iters)).trans (ihnext hnext)
    · simp only [ThreadLocal.handle, if_neg hi] at h
      exact ihnext h
  | findService service_key after next ihafter ihnext =>
    simp only [ThreadLocal.handle] at h
    split at h
    · obtain ⟨s₁, hafter, hnext⟩ := Option.bind_eq_some_iff.mp h
      exact (ihafter hafter).trans (ihnext hnext)
    · exact ihnext h

theorem handle_own {before : HandlerCalls} {s s₁ : ThreadLocal}
    (hbefore : ThreadLocal.handle i before { s with iters := some own :: s.iters } = some s₁)
    (hiters : s₁.iters = some key :: iters) : key = own ∧ Fades s.iters iters := by
  have hfades := handle_fades hbefore
  rw [hiters] at hfades
  cases hfades with
  | cons hown hfades =>
    rcases hown with hown | hown
    · exact ⟨Option.some.inj hown, hfades⟩
    · cases hown

theorem handle_apply {calls : HandlerCalls} {s s' : ThreadLocal} (h : s.handle i calls = some s') :
    s'.m_services = calls.apply i s.m_services := by
  induction calls generalizing s s' with
  | done =>
    cases h
    rfl
  | addService service next ih | modService service next ih =>
    simp only [ThreadLocal.handle] at h
    split at h
    · rename_i hi
      rw [ih h, HandlerCalls.apply, if_pos hi]
      rfl
    · rename_i hi
      rw [ih h, HandlerCalls.apply, if_neg hi]
  | delService service_key before next ihbefore ihnext =>
    by_cases hi : EventLoop.slot n (.delService service_key true) = some i
    · obtain ⟨-, s₁, key, iters, hbefore, hiters, hnext⟩ := (handle_delService hi).mp h
      obtain ⟨rfl, -⟩ := handle_own hbefore hiters
      rw [ihnext hnext, HandlerCalls.apply, if_pos hi, ← ihbefore hbefore]
      rfl
    · simp only [ThreadLocal.handle, if_neg hi] at h
      rw [ihnext h, HandlerCalls.apply, if_neg hi]
  | findService service_key after next ihafter ihnext =>
    simp only [ThreadLocal.handle] at h
    split at h
    · rename_i hi
      obtain ⟨s₁, hafter, hnext⟩ := Option.bind_eq_some_iff.mp h
      rw [ihnext hnext, ihafter hafter, HandlerCalls.apply, if_pos hi]
    · rename_i hi
      rw [ihnext h, HandlerCalls.apply, if_neg hi]

theorem erase_held {key : Int} {held : List Int} :
    ((held.map some).map fun iter => if iter = some key then none else iter) = held.map some ↔ key ∉ held := by
  induction held with
  | nil => simp
  | cons k held ih =>
    simp only [List.map_cons, List.cons.injEq, ih, List.mem_cons, not_or, Option.some.injEq]
    refine and_congr_left fun _ => ?_
    split <;> simp_all [eq_comm]

/-- A `delService` keeps the iterators when it finds an entry that nobody holds,
its callback keeps them and its own, and so does what follows. -/
theorem kept_delService {s : ThreadLocal} {before next : HandlerCalls} {held : List Int}
    (hi : EventLoop.slot n (.delService service_key true) = some i) (hiters : s.iters = held.map some) :
    (∃ s', s.handle i (.delService service_key before next) = some s' ∧ s'.iters = s.iters) ↔
      service_key.toInt ∈ s.m_services ∧ service_key.toInt ∉ held ∧
        ∃ s₁, ThreadLocal.handle i before { s with iters := some service_key.toInt :: s.iters } = some s₁ ∧
          s₁.iters = some service_key.toInt :: s.iters ∧
            ∃ s', ThreadLocal.handle i next ({ s₁ with iters := s.iters }.erase service_key.toInt) = some s' ∧
              s'.iters = s.iters := by
  constructor
  · rintro ⟨s', h, hsame⟩
    obtain ⟨hmem, s₁, key, iters, hbefore, hiters₁, hnext⟩ := (handle_delService hi).mp h
    obtain ⟨rfl, hfades⟩ := handle_own hbefore hiters₁
    have herase := handle_fades hnext
    have hkept := hfades.eq_of_between ((fades_erase _ iters).trans herase) hsame
    subst hkept
    have hheld := (fades_erase service_key.toInt s.iters).eq_of_between herase hsame
    exact ⟨hmem, erase_held.mp (hiters ▸ hheld), s₁, hbefore, hiters₁, s', hnext, hsame⟩
  · rintro ⟨hmem, -, s₁, hbefore, hiters₁, s', hnext, hsame⟩
    exact ⟨s', (handle_delService hi).mpr ⟨hmem, s₁, _, _, hbefore, hiters₁, hnext⟩, hsame⟩

theorem kept_findService {s : ThreadLocal} {after next : HandlerCalls}
    (hi : EventLoop.slot n (.findService service_key) = some i) :
    (∃ s', s.handle i (.findService service_key after next) = some s' ∧ s'.iters = s.iters) ↔
      ∃ s₁, s.handle i after = some s₁ ∧ s₁.iters = s.iters ∧
        ∃ s', s₁.handle i next = some s' ∧ s'.iters = s.iters := by
  simp only [ThreadLocal.handle, if_pos hi, Option.bind_eq_bind, Option.bind_eq_some_iff]
  constructor
  · rintro ⟨s', ⟨s₁, hafter, hnext⟩, hsame⟩
    exact ⟨s₁, hafter, (handle_fades hafter).eq_of_between (handle_fades hnext) hsame, s', hnext, hsame⟩
  · rintro ⟨s₁, hafter, -, s', hnext, hsame⟩
    exact ⟨s', ⟨s₁, hafter, hnext⟩, hsame⟩

/-- The calls are defined and leave the iterators alone just when they delete
no entry that is held or missing. -/
theorem handle_keeps {calls : HandlerCalls} {s : ThreadLocal} (hiters : s.iters = held.map some) :
    (∃ s', s.handle i calls = some s' ∧ s'.iters = s.iters) ↔ calls.Keeps i held s.m_services := by
  induction calls generalizing s held with
  | done => exact ⟨fun _ => trivial, fun _ => ⟨s, rfl, rfl⟩⟩
  | addService service next ih | modService service next ih =>
    simp only [ThreadLocal.handle, HandlerCalls.Keeps]
    split
    · have hstore := ih (s := s.store service) hiters
      exact hstore
    · exact ih hiters
  | delService service_key before next ihbefore ihnext =>
    by_cases hi : EventLoop.slot n (.delService service_key true) = some i
    · have hpush : some service_key.toInt :: s.iters = (service_key.toInt :: held).map some := by
        rw [hiters, List.map_cons]
      have hkeeps := ihbefore (s := { s with iters := some service_key.toInt :: s.iters }) hpush
      rw [kept_delService hi hiters, HandlerCalls.Keeps, if_pos hi, ← hkeeps]
      refine and_congr_right fun _ => and_congr_right fun hheld => ?_
      have hrest (s₁ : ThreadLocal) :
          (∃ s', ThreadLocal.handle i next ({ s₁ with iters := s.iters }.erase service_key.toInt) = some s' ∧
            s'.iters = s.iters) ↔ next.Keeps i held (s₁.m_services.erase service_key.toInt) := by
        have hiters₂ : ({ s₁ with iters := s.iters }.erase service_key.toInt).iters = s.iters := by
          rw [ThreadLocal.erase, hiters]
          exact erase_held.mpr hheld
        have hnext := ihnext (hiters₂.trans hiters)
        rwa [hiters₂] at hnext
      constructor
      · rintro ⟨s₁, hbefore, hiters₁, hnext⟩
        exact ⟨⟨s₁, hbefore, hiters₁⟩, handle_apply hbefore ▸ (hrest s₁).mp hnext⟩
      · rintro ⟨⟨s₁, hbefore, hiters₁⟩, hnext⟩
        exact ⟨s₁, hbefore, hiters₁, (hrest s₁).mpr (handle_apply hbefore ▸ hnext)⟩
    · simp only [ThreadLocal.handle, HandlerCalls.Keeps, if_neg hi]
      exact ihnext hiters
  | findService service_key after next ihafter ihnext =>
    by_cases hi : EventLoop.slot n (.findService service_key) = some i
    · rw [kept_findService hi, HandlerCalls.Keeps, if_pos hi, ← ihafter hiters]
      constructor
      · rintro ⟨s₁, hafter, hkept, hnext⟩
        refine ⟨⟨s₁, hafter, hkept⟩, ?_⟩
        rwa [← handle_apply hafter, ← ihnext (hkept.trans hiters), hkept]
      · rintro ⟨⟨s₁, hafter, hkept⟩, hnext⟩
        refine ⟨s₁, hafter, hkept, ?_⟩
        rwa [← handle_apply hafter, ← ihnext (hkept.trans hiters), hkept] at hnext
    · simp only [ThreadLocal.handle, HandlerCalls.Keeps, if_neg hi]
      exact ihnext hiters

def EventLoop.runCalls (i : Fin n.toNat) : HandlerCalls → EventLoop n → Option (EventLoop n)
  | .done, s => some s
  | .addService service next, s =>
    if slot n (.addService service) = some i then do
      let (s, _) ← s.beginOp (.worker i) (.addService service)
      runCalls i next s
    else runCalls i next s
  | .modService service next, s =>
    if slot n (.modService service) = some i then do
      let (s, _) ← s.beginOp (.worker i) (.modService service)
      runCalls i next s
    else runCalls i next s
  | .delService service_key before next, s =>
    if slot n (.delService service_key true) = some i then do
      let (s, _) ← s.beginOp (.worker i) (.delService service_key true)
      let s ← runCalls i before s
      let (s, _) ← s.endTask (.config (.worker i) (.delService service_key true))
      runCalls i next s
    else runCalls i next s
  | .findService service_key after next, s =>
    if slot n (.findService service_key) = some i then do
      let (s, _) ← s.beginOp (.worker i) (.findService service_key)
      let s ← runCalls i after s
      runCalls i next s
    else runCalls i next s

structure Views (i : Fin n.toNat) (s : EventLoop n) (t : ThreadLocal) : Prop where
  m_services : t.m_services = s.m_pdata i
  iters : t.iters = s.iters i

theorem runCalls_views (calls : HandlerCalls) {s : EventLoop n} {t : ThreadLocal} (h : Views i s t) :
    Option.Rel (Views i) (s.runCalls i calls) (t.handle i calls) := by
  induction calls generalizing s t with
  | done => exact .some h
  | addService service next ih | modService service next ih =>
    simp only [EventLoop.runCalls, ThreadLocal.handle]
    split
    · rename_i hi
      simp only [EventLoop.beginOp, hi, Option.bind_eq_bind, Option.bind_some]
      exact ih ⟨by simp [EventLoop.store, ThreadLocal.store, h.m_services], h.iters⟩
    · exact ih h
  | delService service_key before next ihbefore ihnext =>
    simp only [EventLoop.runCalls, ThreadLocal.handle]
    split
    · rename_i hi
      simp only [EventLoop.beginOp, EventLoop.endTask, hi, Option.bind_eq_bind, Option.bind_some, h.m_services]
      cases (s.m_pdata i)[service_key.toInt]? with
      | none => exact .none
      | some service =>
        have hpush : Views i { s with iters := Function.update s.iters i (some service_key.toInt :: s.iters i) }
            ⟨s.m_pdata i, some service_key.toInt :: t.iters, t.log⟩ := ⟨rfl, by simp [h.iters]⟩
        have hbefore := ihbefore hpush
        simp only [Option.bind_some, if_true, Option.pure_def]
        generalize EventLoop.runCalls i before _ = rs at hbefore ⊢
        generalize ht : ThreadLocal.handle i before _ = rt at hbefore ⊢
        cases hbefore with
        | none => exact .none
        | @some s₁ t₁ hviews =>
          simp only [Option.bind_some, ← hviews.iters]
          rcases hiters : t₁.iters with - | ⟨_ | key, iters⟩
          · exact .none
          · exact .none
          · obtain ⟨rfl, -⟩ := handle_own (s := ⟨s.m_pdata i, t.iters, t.log⟩) ht hiters
            refine ihnext ⟨?_, ?_⟩
            · simp [EventLoop.erase, ThreadLocal.erase, hviews.m_services]
            · simp [EventLoop.erase, ThreadLocal.erase]
    · exact ihnext h
  | findService service_key after next ihafter ihnext =>
    simp only [EventLoop.runCalls, ThreadLocal.handle]
    split
    · rename_i hi
      simp only [EventLoop.beginOp, hi, Option.bind_eq_bind, Option.bind_some, Option.pure_def]
      have hafter := ihafter h
      generalize EventLoop.runCalls i after s = rs at hafter ⊢
      generalize ThreadLocal.handle i after t = rt at hafter ⊢
      cases hafter with
      | none => exact .none
      | some hviews => exact ihnext hviews
    · exact ihnext h

/-- The closures of the loop are defined and leave its iterators alone for the same calls. -/
theorem runCalls_keeps {calls : HandlerCalls} {s : EventLoop n} (hiters : s.iters i = held.map some) :
    (∃ s', s.runCalls i calls = some s' ∧ s'.iters i = s.iters i) ↔ calls.Keeps i held (s.m_pdata i) := by
  have hrel := runCalls_views calls (s := s) (t := ⟨s.m_pdata i, s.iters i, []⟩) ⟨rfl, rfl⟩
  have hkeeps : (∃ t, ThreadLocal.handle i calls ⟨s.m_pdata i, s.iters i, []⟩ = some t ∧ t.iters = s.iters i) ↔
      calls.Keeps i held (s.m_pdata i) := handle_keeps hiters
  rw [← hkeeps]
  generalize s.runCalls i calls = rs at hrel ⊢
  generalize ThreadLocal.handle i calls _ = rt at hrel ⊢
  cases hrel with
  | none => simp
  | some hviews => simp [hviews.iters]

theorem handle_invariant {P : TreeMap Int EventsService → List StepEv → Prop}
    (hstore : ∀ t log service, P t log → P (t.insert service.m_key.toInt service) (log ++ [.stored service]))
    (herase : ∀ t log key, P t log → P (t.erase key) (log ++ [.erased key]))
    {calls : HandlerCalls} {s s' : ThreadLocal} (h : s.handle i calls = some s') (hs : P s.m_services s.log) :
    P s'.m_services s'.log := by
  induction calls generalizing s s' with
  | done =>
    cases h
    exact hs
  | addService service next ih | modService service next ih =>
    simp only [ThreadLocal.handle] at h
    split at h
    · exact ih h (hstore _ _ service hs)
    · exact ih h hs
  | delService service_key before next ihbefore ihnext =>
    by_cases hi : EventLoop.slot n (.delService service_key true) = some i
    · obtain ⟨-, s₁, key, iters, hbefore, -, hnext⟩ := (handle_delService hi).mp h
      have hbefore := ihbefore hbefore hs
      exact ihnext hnext (herase _ _ key hbefore)
    · simp only [ThreadLocal.handle, if_neg hi] at h
      exact ihnext h hs
  | findService service_key after next ihafter ihnext =>
    simp only [ThreadLocal.handle] at h
    split at h
    · obtain ⟨s₁, hafter, hnext⟩ := Option.bind_eq_some_iff.mp h
      exact ihnext hnext (ihafter hafter hs)
    · exact ihnext h hs

end

-- ---------------------------------------------------------------------------
-- A service that stays
-- ---------------------------------------------------------------------------

section

variable {n : BitVec 32} {i : Fin n.toNat} {B : Handlers}

def Stays (key : Int) (service : EventsService) (log : List StepEv) : Prop :=
  .erased key ∉ log ∧ ∀ service', .stored service' ∈ log → service'.m_key.toInt = key → service' = service

theorem Stays.mono {log log' : List StepEv} (h : Stays key service log') (hsub : log ⊆ log') : Stays key service log :=
  ⟨fun herased => h.1 (hsub herased), fun service' hstored => h.2 service' (hsub hstored)⟩

theorem handle_log {s s' : ThreadLocal} {calls : HandlerCalls} (h : s.handle i calls = some s') :
    ∃ new, s'.log = s.log ++ new ∧ (∀ key service, .processed key service ∉ new) ∧
      ∀ key service, Stays key service new → s.m_services[key]? = some service →
        s'.m_services[key]? = some service := by
  refine handle_invariant (P := fun t log => ∃ new, log = s.log ++ new ∧ (∀ key service, .processed key service ∉ new) ∧
    ∀ key service, Stays key service new → s.m_services[key]? = some service → t[key]? = some service)
    ?_ ?_ h ⟨[], by simp, nofun, fun _ _ _ hs => hs⟩
  · rintro t log service ⟨new, rfl, hnew, hstays⟩
    refine ⟨new ++ [.stored service], by simp, by simpa using hnew, ?_⟩
    intro key service' h hservice
    have hold := hstays key service' (h.mono (List.subset_append_left ..)) hservice
    rw [TreeMap.getElem?_insert]
    split
    · rename_i heq
      rw [h.2 service (by simp) (by simpa using heq)]
    · exact hold
  · rintro t log key ⟨new, rfl, hnew, hstays⟩
    refine ⟨new ++ [.erased key], by simp, by simpa using hnew, ?_⟩
    intro key' service h hservice
    have hold := hstays key' service (h.mono (List.subset_append_left ..)) hservice
    rw [TreeMap.getElem?_erase]
    split
    · rename_i heq
      obtain rfl : key = key' := by simpa using heq
      exact absurd (by simp) h.1
    · exact hold

theorem traverseServices_visit {s s₁ : ThreadLocal} (hservice : s.m_services[key]? = some service)
    (hhandle : (s.enter key service).handle i (B s.log service) = some s₁) (hiters : s₁.iters = [some key]) :
    traverseServices i B (fuel + 1) (some key) s =
      traverseServices i B fuel (OrderedMap.next s₁.m_services key) s₁ := by
  simp only [traverseServices, hservice, hhandle, hiters, if_true]

theorem traverseServices_ok {s s' : ThreadLocal} (h : traverseServices i B (fuel + 1) (some key) s = .ok s') :
    ∃ service s₁, s.m_services[key]? = some service ∧ (s.enter key service).handle i (B s.log service) = some s₁ ∧
      traverseServices i B fuel (OrderedMap.next s₁.m_services key) s₁ = .ok s' := by
  simp only [traverseServices] at h
  split at h
  · cases h
  · rename_i service hservice
    split at h
    · cases h
    · rename_i s₁ hhandle
      split at h
      · exact ⟨service, s₁, hservice, hhandle, h⟩
      · cases h

/-- The walk processes the entries from `iter` on that stay, and each once. -/
theorem traverseServices_once {s s' : ThreadLocal} (h : traverseServices i B fuel iter s = .ok s') :
    s.log <+: s'.log ∧ ∀ key service, s.m_services[key]? = some service → Stays key service s'.log →
      s'.log.count (.processed key service) =
        s.log.count (.processed key service) + if ∃ j ∈ iter, j ≤ key then 1 else 0 := by
  induction fuel generalizing iter s with
  | zero =>
    cases iter <;> cases h
    exact ⟨List.prefix_rfl, by simp⟩
  | succ fuel ih =>
    cases iter with
    | none =>
      cases h
      exact ⟨List.prefix_rfl, by simp⟩
    | some j =>
      obtain ⟨v, s₁, hv, hhandle, hrest⟩ := traverseServices_ok h
      obtain ⟨hbefore, hcount⟩ := ih hrest
      obtain ⟨new, hlog, hnew, hkeep⟩ := handle_log hhandle
      replace hlog : s₁.log = s.log ++ .processed j v :: new := by simpa [ThreadLocal.enter] using hlog
      refine ⟨(hlog ▸ List.prefix_append ..).trans hbefore, ?_⟩
      intro key service hservice hstays
      have hsub : new ⊆ s'.log := by
        refine List.Subset.trans ?_ hbefore.subset
        simp [hlog]
      have hservice₁ := hkeep key service (hstays.mono hsub) hservice
      rw [hcount key service hservice₁ hstays, hlog, List.count_append, List.count_cons,
        List.count_eq_zero_of_not_mem (hnew key service)]
      rcases lt_trichotomy j key with hlt | rfl | hgt
      · have hmem : key ∈ s₁.m_services := OrderedMap.mem_of_eq_some hservice₁
        obtain ⟨j', hnext, hle⟩ := OrderedMap.next_le hmem (compare_lt_iff_lt.mpr hlt)
        simp [hnext, Std.isLE_compare.mp hle, hlt.le, hlt.ne]
      · rw [hv] at hservice
        cases hservice
        have hpast : ¬∃ j' ∈ OrderedMap.next s₁.m_services j, j' ≤ j := by
          rintro ⟨j', hnext, hle⟩
          exact absurd (compare_lt_iff_lt.mp (OrderedMap.lt_of_next hnext)) (Int.not_lt.mpr hle)
        rw [if_neg hpast]
        simp
      · have hpast : ¬∃ j' ∈ OrderedMap.next s₁.m_services j, j' ≤ key := by
          rintro ⟨j', hnext, hle⟩
          have hlt := compare_lt_iff_lt.mp (OrderedMap.lt_of_next hnext)
          omega
        rw [if_neg hpast]
        simp [hgt.ne', Int.not_le.mpr hgt]

-- ---------------------------------------------------------------------------
-- An entry that is deleted under the walk
-- ---------------------------------------------------------------------------

inductive Visits (i : Fin n.toNat) (B : Handlers) :
    Option Int → ThreadLocal → Int → EventsService → ThreadLocal → Prop
  | here : s.m_services[key]? = some service → Visits i B (some key) s key service s
  | next : s.m_services[j]? = some v → (s.enter j v).handle i (B s.log v) = some s₁ → s₁.iters = [some j] →
      Visits i B (OrderedMap.next s₁.m_services j) s₁ key service s' → Visits i B (some j) s key service s'

/-- No service that the walk processes deletes its own entry or one that there is not. -/
def KeepsEntries (i : Fin n.toNat) (B : Handlers) (m_services : TreeMap Int EventsService) : Prop :=
  ∀ key service s, Visits i B (OrderedMap.first m_services) ⟨m_services, [], []⟩ key service s →
    (B s.log service).Keeps i [key] s.m_services

/-- A step never stands at an entry that is gone, comes to its end, and has
then processed each service that stayed exactly once. -/
structure SafeStep (i : Fin n.toNat) (B : Handlers) (m_services : TreeMap Int EventsService) : Prop where
  safe : ∀ fuel e, processEvents i B fuel m_services = .error e → e = .fuel
  once : ∃ fuel s, processEvents i B fuel m_services = .ok s ∧ ∀ key service, m_services[key]? = some service →
    Stays key service s.log → s.log.count (.processed key service) = 1

theorem visit_keeps {s : ThreadLocal} : (∃ s₁, (s.enter key service).handle i (B s.log service) = some s₁ ∧
    s₁.iters = [some key]) ↔ (B s.log service).Keeps i [key] s.m_services := by
  have hiters : (s.enter key service).iters = [key].map some := rfl
  exact handle_keeps hiters

theorem error_of_visits {s s' : ThreadLocal} (h : Visits i B iter s key service s')
    (hkeeps : ¬(B s'.log service).Keeps i [key] s'.m_services) :
    ∃ fuel e, traverseServices i B fuel iter s = .error e ∧ e ≠ .fuel := by
  induction h with
  | @here key service s hservice =>
    rw [← visit_keeps] at hkeeps
    cases hhandle : (s.enter key service).handle i (B s.log service) with
    | none => exact ⟨1, .undefined, by simp only [traverseServices, hservice, hhandle], nofun⟩
    | some s₁ =>
      have hiters : s₁.iters ≠ [some key] := fun hiters => hkeeps ⟨s₁, hhandle, hiters⟩
      exact ⟨1, .erased, by simp only [traverseServices, hservice, hhandle, if_neg hiters], nofun⟩
  | next hv hhandle hiters _ ih =>
    obtain ⟨fuel, e, herror, hne⟩ := ih hkeeps
    refine ⟨fuel + 1, e, ?_, hne⟩
    rw [traverseServices_visit hv hhandle hiters, herror]

theorem visits_of_error {s : ThreadLocal} (hiter : ∀ key ∈ iter, key ∈ s.m_services)
    (h : traverseServices i B fuel iter s = .error e) (hne : e ≠ .fuel) :
    ∃ key service s', Visits i B iter s key service s' ∧ ¬(B s'.log service).Keeps i [key] s'.m_services := by
  induction fuel generalizing iter s with
  | zero =>
    cases iter <;> cases h
    exact absurd rfl hne
  | succ fuel ih =>
    cases iter with
    | none => cases h
    | some key =>
      obtain ⟨service, hservice⟩ := OrderedMap.mem_iff_exists.mp (hiter key rfl)
      by_cases hkeeps : (B s.log service).Keeps i [key] s.m_services
      · obtain ⟨s₁, hhandle, hiters⟩ := visit_keeps.mpr hkeeps
        rw [traverseServices_visit hservice hhandle hiters] at h
        obtain ⟨key', service', s', hvisits, hkeeps'⟩ := ih (fun _ => OrderedMap.mem_of_next) h
        exact ⟨key', service', s', .next hservice hhandle hiters hvisits, hkeeps'⟩
      · exact ⟨key, service, s, .here hservice, hkeeps⟩

-- ---------------------------------------------------------------------------
-- The end of the walk
-- ---------------------------------------------------------------------------

def KeysBelow (bound : Int) (t : TreeMap Int EventsService) : Prop := 2 ^ 63 ≤ bound ∧ ∀ key ∈ t, key < bound

theorem keysBelow_exists (t : TreeMap Int EventsService) : ∃ bound, KeysBelow bound t := by
  obtain ⟨top, htop⟩ := t.keys.finite_toSet.bddAbove
  refine ⟨max (2 ^ 63) (top + 1), le_max_left .., fun key hkey => ?_⟩
  exact lt_max_of_lt_right (Int.lt_add_one_of_le (htop (TreeMap.mem_keys.mpr hkey)))

theorem handle_keysBelow {s s' : ThreadLocal} {calls : HandlerCalls} (h : s.handle i calls = some s')
    (hbelow : KeysBelow bound s.m_services) : KeysBelow bound s'.m_services := by
  refine handle_invariant (P := fun t _ => KeysBelow bound t) ?_ ?_ h hbelow
  · rintro t log service ⟨hbound, hkeys⟩
    refine ⟨hbound, fun key hkey => ?_⟩
    rcases TreeMap.mem_insert.mp hkey with heq | hkey
    · obtain rfl : service.m_key.toInt = key := by simpa using heq
      exact Int.lt_of_lt_of_le service.m_key.toInt_lt hbound
    · exact hkeys key hkey
  · rintro t log key ⟨hbound, hkeys⟩
    exact ⟨hbound, fun key hkey => hkeys key (TreeMap.mem_of_mem_erase hkey)⟩

theorem traverseServices_ends {s : ThreadLocal} (key : Int) (hkey : key ∈ s.m_services)
    (hbelow : KeysBelow bound s.m_services)
    (hsafe : ∀ fuel e, traverseServices i B fuel (some key) s = .error e → e = .fuel) :
    ∃ fuel s', traverseServices i B fuel (some key) s = .ok s' := by
  obtain ⟨service, hservice⟩ := OrderedMap.mem_iff_exists.mp hkey
  have hkeeps : (B s.log service).Keeps i [key] s.m_services := by
    by_contra hkeeps
    obtain ⟨fuel, e, herror, hne⟩ := error_of_visits (.here hservice) hkeeps
    exact hne (hsafe fuel e herror)
  obtain ⟨s₁, hhandle, hiters⟩ := visit_keeps.mpr hkeeps
  cases hnext : OrderedMap.next s₁.m_services key with
  | none =>
    refine ⟨1, s₁, ?_⟩
    rw [traverseServices_visit hservice hhandle hiters, hnext]
    rfl
  | some key' =>
    have hlt := compare_lt_iff_lt.mp (OrderedMap.lt_of_next hnext)
    have hkey' := OrderedMap.mem_of_next hnext
    have hbelow' := handle_keysBelow hhandle hbelow
    have hend := hbelow'.2 key' hkey'
    obtain ⟨fuel, s', h⟩ := traverseServices_ends key' hkey' hbelow' fun fuel e herror => by
      refine hsafe (fuel + 1) e ?_
      rw [traverseServices_visit hservice hhandle hiters, hnext, herror]
    refine ⟨fuel + 1, s', ?_⟩
    rw [traverseServices_visit hservice hhandle hiters, hnext, h]
termination_by (bound - key).toNat
decreasing_by omega

/-- A step is safe just when no service that it processes deletes its own entry,
or one that there is not. -/
theorem processEvents_safe_iff {n : BitVec 32} (i : Fin n.toNat) (B : Handlers)
    (m_services : TreeMap Int EventsService) : SafeStep i B m_services ↔ KeepsEntries i B m_services := by
  have hfirst : ∀ key ∈ OrderedMap.first m_services, key ∈ m_services := fun _ => OrderedMap.mem_of_first
  constructor
  · intro h key service s hvisits
    by_contra hkeeps
    obtain ⟨fuel, e, herror, hne⟩ := error_of_visits hvisits hkeeps
    exact hne (h.safe fuel e herror)
  · intro h
    have hsafe (fuel : Nat) (e : StepError) (herror : processEvents i B fuel m_services = .error e) : e = .fuel := by
      by_contra hne
      obtain ⟨key, service, s, hvisits, hkeeps⟩ := visits_of_error hfirst herror hne
      exact hkeeps (h key service s hvisits)
    have hends : ∃ fuel s, processEvents i B fuel m_services = .ok s := by
      unfold processEvents at hsafe ⊢
      cases hiter : OrderedMap.first m_services with
      | none => exact ⟨0, _, rfl⟩
      | some key =>
        rw [hiter] at hsafe
        obtain ⟨bound, hbelow⟩ := keysBelow_exists m_services
        exact traverseServices_ends key (hfirst key hiter) hbelow hsafe
    obtain ⟨fuel, s, hs⟩ := hends
    refine ⟨hsafe, fuel, s, hs, fun key service hservice hstays => ?_⟩
    obtain ⟨-, hcount⟩ := traverseServices_once hs
    have hmem : key ∈ m_services := OrderedMap.mem_of_eq_some hservice
    obtain ⟨j, hj, hle⟩ := OrderedMap.first_le hmem
    rw [hcount key service hservice hstays, if_pos ⟨j, hj, Std.isLE_compare.mp hle⟩]
    rfl

end

def deletesOwn : Handlers := fun _ service => .delService service.m_key .done .done

/-- One thread with one service: its entry is erased while the walk stands at it. -/
theorem processEvents_unsafe :
    ¬SafeStep (n := 1) ⟨0, by decide⟩ deletesOwn ((∅ : TreeMap Int EventsService).insert 5 ⟨1, 5⟩) := by
  intro h
  have herased := h.safe 1 .erased rfl
  cases herased

end Andren.Network
