import Andren.Machine.Trace
import Andren.Network.Schedule
import Andren.Network.TaskDistributor
import Std.Data.TreeMap.Lemmas

/-!
# The event loop

Each worker thread of an `EventLoop` has a registry of services. A client's
`addService`, `modService`, `delService` or `findService` chooses a thread from
the key and has a closure run there: in place when the client is that worker,
else through its queue.

For a key that all four send to one thread, the registry of that thread is what
the closures that ran made of it (`Registry`), and the closures of one client
run in the order of its calls (`InOrder`).
-/

namespace Andren.Network

open Machines Base

open Std (TreeMap)

structure EventsService where
  id : Nat
  m_key : BitVec 64
  deriving DecidableEq

/-- A call of a client; `before` tells whether `delService` is given a callback. -/
inductive ServiceOp
  | addService (service : EventsService)
  | delService (service_key : BitVec 64) (before : Bool)
  | modService (service : EventsService)
  | findService (service_key : BitVec 64)
  deriving DecidableEq

namespace ServiceOp

def key : ServiceOp → BitVec 64
  | .addService service | .modService service => service.m_key
  | .delService service_key _ | .findService service_key => service_key

/-- The thread that the call chooses. `addService` passes the `uint64_t` that
`getKey` returns, the others an `int64_t`. -/
def index (threadCount : BitVec 32) : ServiceOp → Option (BitVec 32)
  | .addService service => (Schedule.mk threadCount).doScheduleUint64 service.m_key
  | .modService service => (Schedule.mk threadCount).doScheduleInt64 service.m_key
  | .delService service_key _ | .findService service_key =>
    (Schedule.mk threadCount).doScheduleInt64 service_key

end ServiceOp

inductive LoopTask
  | config (c : Caller) (op : ServiceOp)
  | processEvents
  deriving DecidableEq

/-- `iters` are the iterators that `delService` holds during its callbacks on a
thread, the innermost first; an iterator to an erased entry is `none`. -/
structure EventLoop (n : BitVec 32) where
  m_exec : TaskDistributor n.toNat LoopTask
  m_pdata : Fin n.toNat → TreeMap Int EventsService
  iters : Fin n.toNat → List (Option Int)

inductive LoopAct
  | construct
  /-- A client's call up to the queue's mutex, with a null service if `none`. -/
  | call (c : Caller) (op : Option ServiceOp)
  /-- `start` and the end of a processing step add the next step. -/
  | startNextStep (c : Caller) (index : Nat)
  | pushBack (c : Caller)
  | worker (k : Nat)
  | shutdown
  | control

inductive LoopEv (n : BitVec 32)
  | refused (c : Caller)
  /-- The call returns true. -/
  | called (c : Caller) (op : ServiceOp)
  /-- The closure of the call runs; `res` is what it gives the callback. -/
  | begun (i : Fin n.toNat) (c : Caller) (op : ServiceOp) (res : Option EventsService)
  | erased (i : Fin n.toNat) (service_key : BitVec 64)
  deriving DecidableEq

namespace EventLoop

variable {n : BitVec 32}

def new (n : BitVec 32) : EventLoop n where
  m_exec := .new n.toNat LoopTask
  m_pdata := fun _ => ∅
  iters := fun _ => []

def slot (n : BitVec 32) (op : ServiceOp) : Option (Fin n.toNat) := do
  let index ← op.index n
  if h : index.toNat < n.toNat then pure ⟨index.toNat, h⟩ else none

def store (s : EventLoop n) (i : Fin n.toNat) (service : EventsService) : EventLoop n :=
  { s with m_pdata := Function.update s.m_pdata i ((s.m_pdata i).insert service.m_key.toInt service) }

def erase (s : EventLoop n) (i : Fin n.toNat) (service_key : BitVec 64) : EventLoop n :=
  { s with
    m_pdata := Function.update s.m_pdata i ((s.m_pdata i).erase service_key.toInt)
    iters := Function.update s.iters i
      ((s.iters i).map fun iter => if iter = some service_key.toInt then none else iter) }

/-- The closure of a call, up to the end of a `delService` callback. Using the
end iterator is undefined. -/
def beginOp (s : EventLoop n) (c : Caller) (op : ServiceOp) : Option (EventLoop n × List (LoopEv n)) := do
  let i ← slot n op
  match op with
  | .addService service | .modService service => pure (s.store i service, [.begun i c op none])
  | .findService service_key => pure (s, [.begun i c op (s.m_pdata i)[service_key.toInt]?])
  | .delService service_key before =>
    let service ← (s.m_pdata i)[service_key.toInt]?
    if before then
      pure ({ s with iters := Function.update s.iters i (some service_key.toInt :: s.iters i) },
        [.begun i c op (some service)])
    else pure (s.erase i service_key, [.begun i c op none, .erased i service_key])

def beginTask (s : EventLoop n) : LoopTask → Option (EventLoop n × List (LoopEv n))
  | .config c op => s.beginOp c op
  | .processEvents => some (s, [])

/-- What is left of a task when its callback returns. -/
def endTask (s : EventLoop n) : LoopTask → Option (EventLoop n × List (LoopEv n))
  | .config _ (.delService service_key true) => do
    let i ← slot n (.delService service_key true)
    match s.iters i with
    | some _ :: iters =>
      let s := { s with iters := Function.update s.iters i iters }
      pure (s.erase i service_key, [.erased i service_key])
    | _ => none
  | _ => some (s, [])

def called : LoopTask → List (LoopEv n)
  | .config c op => [.called c op]
  | .processEvents => []

/-- What an event of the executor means for the loop. -/
def note (s : EventLoop n) : DistEv n.toNat LoopTask → Option (EventLoop n × List (LoopEv n))
  | .refused c => some (s, [.refused c])
  | .accepted _ _ t => some (s, called t)
  | .executed _ t => s.beginTask t
  | .inplace _ t => do
    let (s, es) ← s.beginTask t
    pure (s, called t ++ es)

def noteAll (s : EventLoop n) : List (DistEv n.toNat LoopTask) → Option (EventLoop n × List (LoopEv n))
  | [] => some (s, [])
  | e :: des => do
    let (s, es) ← s.note e
    let (s, es') ← s.noteAll des
    pure (s, es ++ es')

def exec (s : EventLoop n) (a : DistAct LoopTask) : Option (EventLoop n × List (LoopEv n)) := do
  let (d, des) ← (taskDistributor n.toNat LoopTask).step s.m_exec a
  noteAll { s with m_exec := d } des

def constructed (s : EventLoop n) : Bool :=
  s.m_exec.m_tpool.isSome && match s.m_exec.control with
    | .starting _ => false
    | _ => true

def valid (s : EventLoop n) : Bool := !s.m_exec.m_exit && n.toNat != 0

def leave (s : EventLoop n) (k : Nat) : Option (EventLoop n × List (LoopEv n)) :=
  match s.m_exec.threads[k]? with
  | some ⟨_, .running t _ _⟩ => s.endTask t
  | _ => some (s, [])

def work (s : EventLoop n) (k : Nat) : Option (EventLoop n × List (LoopEv n)) := do
  let (s, es) ← s.leave k
  let (s, es') ← s.exec (.worker k)
  pure (s, es ++ es')

end EventLoop

open EventLoop in
/-- An event loop with `n` threads, and any number of clients. -/
def eventLoop (n : BitVec 32) : Machine (EventLoop n) LoopAct (LoopEv n) where
  init := new n
  step s
    | .construct => if s.m_exec.m_tpool.isNone then s.exec .start else none
    | .call c op =>
      if s.constructed && s.m_exec.canCall c then
        match op with
        | some op =>
          if s.valid then do
            let index ← op.index n
            s.exec (.addTaskASAP c (some (.config c op)) index.toNat)
          else some (s, [.refused c])
        | none => some (s, [.refused c])
      else none
    | .startNextStep c index =>
      if s.constructed then s.exec (.addTask c (some .processEvents) index) else none
    | .pushBack c => s.exec (.pushBack c)
    | .worker k => s.work k
    | .shutdown => if s.constructed then s.exec .shutdown else none
    | .control => s.exec .control

-- ---------------------------------------------------------------------------
-- Where a key lives
-- ---------------------------------------------------------------------------

section

variable {n : BitVec 32}

def SameThread (n : BitVec 32) (key : BitVec 64) : Prop :=
  ∀ op op' : ServiceOp, op.key = key → op'.key = key → EventLoop.slot n op = EventLoop.slot n op'

/-- `key` is not negative as an `int64_t`, or `n` divides the difference between
its two readings. -/
def Agrees (n : BitVec 32) (key : BitVec 64) : Prop := 0 ≤ key.toInt ∨ n.toInt ∣ 2 ^ 64 + 2 * key.toInt

theorem index_eq (hn : 0 < n.toInt) (op : ServiceOp) :
    ∃ r, op.index n = some r ∧ r.toNat < n.toNat := by
  have hlt (v : BitVec 64) : ∃ r, (Schedule.mk n).modThreads v = some r ∧ r.toNat < n.toNat := by
    obtain ⟨r, hr, hlt, -⟩ := (Schedule.mk n).modThreads_eq hn v
    exact ⟨r, hr, hlt⟩
  cases op <;> exact hlt _

theorem slot_eq (hn : 0 < n.toInt) (op : ServiceOp) :
    ∃ r i, op.index n = some r ∧ EventLoop.slot n op = some i ∧ r.toNat = i.val := by
  obtain ⟨r, hr, hlt⟩ := index_eq hn op
  refine ⟨r, ⟨r.toNat, hlt⟩, hr, ?_, rfl⟩
  simp [EventLoop.slot, hr, hlt]

theorem slot_inj (hn : 0 < n.toInt) {op op' : ServiceOp}
    (h : EventLoop.slot n op = EventLoop.slot n op') : op.index n = op'.index n := by
  obtain ⟨r, i, hr, hi, hri⟩ := slot_eq hn op
  obtain ⟨r', i', hr', hi', hri'⟩ := slot_eq hn op'
  obtain rfl : i = i' := Option.some.inj (hi.symm.trans (h.trans hi'))
  rw [hr, hr', BitVec.eq_of_toNat_eq (hri.trans hri'.symm)]

theorem sameThread_iff (hn : 0 < n.toInt) (key : BitVec 64) : SameThread n key ↔ Agrees n key := by
  have hagree := (Schedule.mk n).doSchedule_agree hn key
  constructor
  · intro h
    exact hagree.mp (slot_inj hn (h (.addService ⟨0, key⟩) (.findService key) rfl rfl))
  · intro h
    have hindex : ∀ op : ServiceOp, op.key = key →
        op.index n = (Schedule.mk n).doScheduleInt64 key := by
      rintro (service | service_key | service | service_key) rfl
      · exact hagree.mpr h
      all_goals rfl
    intro op op' hop hop'
    rw [EventLoop.slot, EventLoop.slot, hindex op hop, hindex op' hop']

-- ---------------------------------------------------------------------------
-- What the registries hold
-- ---------------------------------------------------------------------------

def ServiceOp.stores : ServiceOp → Option EventsService
  | .addService service | .modService service => some service
  | _ => none

def LoopEv.effect (key : BitVec 64) : LoopEv n → Option (Option EventsService)
  | .begun _ _ op _ => if op.key = key then op.stores.map some else none
  | .erased _ service_key => if service_key = key then some none else none
  | _ => none

def effects (key : BitVec 64) (tr : List (LoopEv n)) : List (Option EventsService) :=
  tr.filterMap (LoopEv.effect key)

def lastEffect (key : BitVec 64) (tr : List (LoopEv n)) : Option EventsService :=
  (effects key tr).getLast?.join

theorem lastEffect_append_none (h : LoopEv.effect key e = none) (tr : List (LoopEv n)) :
    lastEffect key (tr ++ [e]) = lastEffect key tr := by
  simp [lastEffect, effects, h]

theorem lastEffect_append_some (h : LoopEv.effect key e = some v) (tr : List (LoopEv n)) :
    lastEffect key (tr ++ [e]) = v := by
  simp [lastEffect, effects, h]

/-- After `tr`, the entry of `key` is in the registry `home` and is what the
last closure that changed it left there, as every `findService` saw it. -/
structure Registry (key : BitVec 64) (home : Fin n.toNat) (tr : List (LoopEv n)) (s : EventLoop n) :
    Prop where
  content : ∀ j, (s.m_pdata j)[key.toInt]? = if j = home then lastEffect key tr else none
  found : ∀ t₁ j c res t₂, tr = t₁ ++ .begun j c (.findService key) res :: t₂ → res = lastEffect key t₁

variable {key : BitVec 64} {home : Fin n.toNat} {tr : List (LoopEv n)} {s s' : EventLoop n}

inductive OpRuns (s : EventLoop n) (c : Caller) (i : Fin n.toNat) :
    ServiceOp → EventLoop n → List (LoopEv n) → Prop
  | adds (service : EventsService) :
      OpRuns s c i (.addService service) (s.store i service) [.begun i c (.addService service) none]
  | mods (service : EventsService) :
      OpRuns s c i (.modService service) (s.store i service) [.begun i c (.modService service) none]
  | finds (service_key : BitVec 64) : OpRuns s c i (.findService service_key) s
      [.begun i c (.findService service_key) (s.m_pdata i)[service_key.toInt]?]
  | calls {service_key : BitVec 64} {service : EventsService}
      (hservice : (s.m_pdata i)[service_key.toInt]? = some service) :
      OpRuns s c i (.delService service_key true)
        { s with iters := Function.update s.iters i (some service_key.toInt :: s.iters i) }
        [.begun i c (.delService service_key true) (some service)]
  | deletes {service_key : BitVec 64} {service : EventsService}
      (hservice : (s.m_pdata i)[service_key.toInt]? = some service) :
      OpRuns s c i (.delService service_key false) (s.erase i service_key)
        [.begun i c (.delService service_key false) none, .erased i service_key]

theorem beginOp_runs (hs : s.beginOp c op = some (s', es)) :
    ∃ i, EventLoop.slot n op = some i ∧ OpRuns s c i op s' es := by
  unfold EventLoop.beginOp at hs
  simp only [Option.bind_eq_bind, Option.bind_eq_some_iff] at hs
  obtain ⟨i, hi, hs⟩ := hs
  refine ⟨i, hi, ?_⟩
  cases op with
  | addService service =>
    cases hs
    exact .adds service
  | modService service =>
    cases hs
    exact .mods service
  | findService service_key =>
    cases hs
    exact .finds service_key
  | delService service_key before =>
    simp only [Option.bind_eq_some_iff] at hs
    obtain ⟨service, hservice, hs⟩ := hs
    cases before with
    | true =>
      cases hs
      exact .calls hservice
    | false =>
      cases hs
      exact .deletes hservice

theorem endTask_cases (hs : s.endTask t = some (s', es)) :
    (∃ c service_key i iters, t = .config c (.delService service_key true) ∧
      EventLoop.slot n (.delService service_key true) = some i ∧
      s' = EventLoop.erase { s with iters := Function.update s.iters i iters } i service_key ∧
      es = [.erased i service_key]) ∨
    (∀ c service_key, t ≠ .config c (.delService service_key true)) ∧ s' = s ∧ es = [] := by
  unfold EventLoop.endTask at hs
  split at hs
  · simp only [Option.bind_eq_bind, Option.bind_eq_some_iff] at hs
    obtain ⟨i, hi, hs⟩ := hs
    split at hs <;> cases hs
    exact .inl ⟨_, _, i, _, rfl, hi, rfl, rfl⟩
  · rename_i hno
    cases hs
    exact .inr ⟨hno, rfl, rfl⟩

theorem Registry.snoc (h : Registry key home tr s)
    (hcontent : ∀ j, (s'.m_pdata j)[key.toInt]? = if j = home then lastEffect key (tr ++ [e]) else none)
    (hfound : ∀ j c res, e = .begun j c (.findService key) res → res = lastEffect key tr) :
    Registry key home (tr ++ [e]) s' := by
  refine ⟨hcontent, ?_⟩
  intro t₁ j c res t₂ heq
  rcases snoc_split heq with ⟨rfl, he, -⟩ | ⟨t, -, heq⟩
  · exact hfound j c res he.symm
  · exact h.found t₁ j c res t heq

theorem Registry.quiet (h : Registry key home tr s) (hdata : s'.m_pdata = s.m_pdata)
    (heffect : LoopEv.effect key e = none)
    (hfound : ∀ j c res, e = .begun j c (.findService key) res → res = lastEffect key tr) :
    Registry key home (tr ++ [e]) s' := by
  refine h.snoc ?_ hfound
  rw [hdata, lastEffect_append_none heffect]
  exact h.content

theorem getElem?_store (s : EventLoop n) (i j : Fin n.toNat) (service : EventsService) (key : BitVec 64) :
    ((s.store i service).m_pdata j)[key.toInt]? =
      if j = i ∧ service.m_key = key then some service else (s.m_pdata j)[key.toInt]? := by
  rcases eq_or_ne j i with rfl | hne
  · simp [EventLoop.store, TreeMap.getElem?_insert, BitVec.toInt_inj]
  · simp [EventLoop.store, hne]

theorem getElem?_erase (s : EventLoop n) (i j : Fin n.toNat) (service_key key : BitVec 64) :
    ((s.erase i service_key).m_pdata j)[key.toInt]? =
      if j = i ∧ service_key = key then none else (s.m_pdata j)[key.toInt]? := by
  rcases eq_or_ne j i with rfl | hne
  · simp [EventLoop.erase, TreeMap.getElem?_erase, BitVec.toInt_inj]
  · simp [EventLoop.erase, hne]

theorem Registry.store {op : ServiceOp} {service : EventsService} {i : Fin n.toNat}
    (h : Registry key home tr s) (hop : op.stores = some service)
    (hkey : op.key = service.m_key) (hhome : op.key = key → i = home) :
    Registry key home (tr ++ [.begun i c op none]) (s.store i service) := by
  refine h.snoc ?_ ?_
  · intro j
    rw [getElem?_store, h.content j]
    by_cases hop' : op.key = key
    · obtain rfl := hhome hop'
      rw [lastEffect_append_some (v := some service) (by simp [LoopEv.effect, hop', hop])]
      by_cases hj : j = i <;> simp [hj, ← hkey, hop']
    · rw [lastEffect_append_none (by simp [LoopEv.effect, hop']), if_neg]
      rintro ⟨-, rfl⟩
      exact hop' hkey
  · rintro j c res ⟨⟩
    cases hop

theorem Registry.erase (h : Registry key home tr s) (hhome : service_key = key → i = home) :
    Registry key home (tr ++ [.erased i service_key]) (s.erase i service_key) := by
  refine h.snoc ?_ nofun
  intro j
  rw [getElem?_erase, h.content j]
  by_cases hkey : service_key = key
  · obtain rfl := hhome hkey
    rw [lastEffect_append_some (v := none) (by simp [LoopEv.effect, hkey])]
    by_cases hj : j = i <;> simp [hj, hkey]
  · rw [lastEffect_append_none (by simp [LoopEv.effect, hkey]), if_neg fun h => hkey h.2]

theorem Registry.beginOp (h : Registry key home tr s)
    (hhome : ∀ op : ServiceOp, op.key = key → EventLoop.slot n op = some home)
    (hs : s.beginOp c op = some (s', es)) : Registry key home (tr ++ es) s' := by
  obtain ⟨i, hi, hruns⟩ := beginOp_runs hs
  have hhome' : op.key = key → i = home := fun hkey => Option.some.inj (hi.symm.trans (hhome op hkey))
  cases hruns with
  | adds service | mods service => exact h.store rfl rfl hhome'
  | finds service_key =>
    refine h.quiet rfl (by simp [LoopEv.effect, ServiceOp.stores]) ?_
    rintro j c res ⟨⟩
    rw [h.content i, if_pos (hhome' rfl)]
  | calls => exact h.quiet rfl (by simp [LoopEv.effect, ServiceOp.stores]) (by rintro j c res ⟨⟩)
  | @deletes service_key service =>
    have hbegun : Registry key home (tr ++ [.begun i c (.delService service_key false) none]) s :=
      h.quiet rfl (by simp [LoopEv.effect, ServiceOp.stores]) (by rintro j c res ⟨⟩)
    rw [List.append_cons]
    exact hbegun.erase hhome'

theorem Registry.beginTask (h : Registry key home tr s)
    (hhome : ∀ op : ServiceOp, op.key = key → EventLoop.slot n op = some home)
    (hs : s.beginTask t = some (s', es)) : Registry key home (tr ++ es) s' := by
  cases t with
  | config c op => exact h.beginOp hhome hs
  | processEvents =>
    cases hs
    rwa [List.append_nil]

theorem Registry.endTask (h : Registry key home tr s)
    (hhome : ∀ op : ServiceOp, op.key = key → EventLoop.slot n op = some home)
    (hs : s.endTask t = some (s', es)) : Registry key home (tr ++ es) s' := by
  obtain ⟨c, service_key, i, iters, rfl, hi, rfl, rfl⟩ | ⟨-, rfl, rfl⟩ := endTask_cases hs
  · have hpop : Registry key home tr { s with iters := Function.update s.iters i iters } :=
      ⟨h.content, h.found⟩
    exact hpop.erase fun hkey =>
      Option.some.inj (hi.symm.trans (hhome (.delService service_key true) hkey))
  · rwa [List.append_nil]

theorem Registry.called (h : Registry key home tr s) (t : LoopTask) :
    Registry key home (tr ++ EventLoop.called t) s := by
  cases t with
  | config c op => exact h.quiet rfl rfl nofun
  | processEvents => rwa [EventLoop.called, List.append_nil]

theorem Registry.note (h : Registry key home tr s)
    (hhome : ∀ op : ServiceOp, op.key = key → EventLoop.slot n op = some home)
    (hs : s.note e = some (s', es)) : Registry key home (tr ++ es) s' := by
  cases e with
  | refused c =>
    cases hs
    exact h.quiet rfl rfl nofun
  | accepted c i t =>
    cases hs
    exact h.called t
  | executed k t => exact h.beginTask hhome hs
  | inplace k t =>
    simp only [EventLoop.note, Option.bind_eq_bind, Option.bind_eq_some_iff] at hs
    obtain ⟨⟨s₁, es₁⟩, hbegin, hs⟩ := hs
    cases hs
    rw [← List.append_assoc]
    exact (h.called t).beginTask hhome hbegin

theorem Registry.noteAll (h : Registry key home tr s)
    (hhome : ∀ op : ServiceOp, op.key = key → EventLoop.slot n op = some home)
    (hs : s.noteAll des = some (s', es)) : Registry key home (tr ++ es) s' := by
  induction des generalizing s tr es with
  | nil =>
    cases hs
    rwa [List.append_nil]
  | cons e des ih =>
    simp only [EventLoop.noteAll, Option.bind_eq_bind, Option.bind_eq_some_iff] at hs
    obtain ⟨⟨s₁, es₁⟩, hnote, ⟨s₂, es₂⟩, hrest, hs⟩ := hs
    cases hs
    rw [← List.append_assoc]
    exact ih (h.note hhome hnote) hrest

theorem Registry.exec (h : Registry key home tr s)
    (hhome : ∀ op : ServiceOp, op.key = key → EventLoop.slot n op = some home)
    (hs : s.exec a = some (s', es)) : Registry key home (tr ++ es) s' := by
  simp only [EventLoop.exec, Option.bind_eq_bind, Option.bind_eq_some_iff] at hs
  obtain ⟨⟨d, des⟩, -, hs⟩ := hs
  have hexec : Registry key home tr { s with m_exec := d } := ⟨h.content, h.found⟩
  exact hexec.noteAll hhome hs

theorem Registry.work (h : Registry key home tr s)
    (hhome : ∀ op : ServiceOp, op.key = key → EventLoop.slot n op = some home)
    (hs : s.work k = some (s', es)) : Registry key home (tr ++ es) s' := by
  simp only [EventLoop.work, Option.bind_eq_bind, Option.bind_eq_some_iff] at hs
  obtain ⟨⟨s₁, es₁⟩, hleave, ⟨s₂, es₂⟩, hexec, hs⟩ := hs
  cases hs
  rw [← List.append_assoc]
  refine Registry.exec ?_ hhome hexec
  unfold EventLoop.leave at hleave
  split at hleave
  · exact h.endTask hhome hleave
  · cases hleave
    rwa [List.append_nil]

inductive Issues (s : EventLoop n) : DistAct LoopTask → Prop
  | start : s.m_exec.m_tpool = none → Issues s .start
  | call (c : Caller) : ServiceOp.index n op = some r →
      Issues s (.addTaskASAP c (some (.config c op)) r.toNat)
  | startNextStep (c : Caller) (index : Nat) : Issues s (.addTask c (some .processEvents) index)
  | pushBack (c : Caller) : Issues s (.pushBack c)
  | shutdown : Issues s .shutdown
  | control : Issues s .control

theorem eventLoop_cases {a : LoopAct} (hs : (eventLoop n).step s a = some (s', es)) :
    (∃ d, Issues s d ∧ s.exec d = some (s', es)) ∨ (∃ k, s.work k = some (s', es)) ∨
      ∃ c, s' = s ∧ es = [.refused c] := by
  cases a with
  | construct =>
    obtain ⟨hpool, hs⟩ := Option.ite_none_right_eq_some.mp hs
    exact .inl ⟨_, .start (Option.isNone_iff_eq_none.mp hpool), hs⟩
  | call c op =>
    obtain ⟨-, hs⟩ := Option.ite_none_right_eq_some.mp hs
    cases op with
    | none =>
      cases hs
      exact .inr (.inr ⟨c, rfl, rfl⟩)
    | some op =>
      dsimp only at hs
      split at hs
      · simp only [Option.bind_eq_bind, Option.bind_eq_some_iff] at hs
        obtain ⟨r, hr, hs⟩ := hs
        exact .inl ⟨_, .call c hr, hs⟩
      · cases hs
        exact .inr (.inr ⟨c, rfl, rfl⟩)
  | startNextStep c index =>
    obtain ⟨-, hs⟩ := Option.ite_none_right_eq_some.mp hs
    exact .inl ⟨_, .startNextStep c index, hs⟩
  | pushBack c => exact .inl ⟨_, .pushBack c, hs⟩
  | worker k => exact .inr (.inl ⟨k, hs⟩)
  | shutdown =>
    obtain ⟨-, hs⟩ := Option.ite_none_right_eq_some.mp hs
    exact .inl ⟨_, .shutdown, hs⟩
  | control => exact .inl ⟨_, .control, hs⟩

theorem registry_run (hhome : ∀ op : ServiceOp, op.key = key → EventLoop.slot n op = some home)
    (h : (eventLoop n).Run tr s) : Registry key home tr s := by
  refine h.invariant (I := Registry key home) ⟨?_, ?_⟩ ?_
  · intro j
    simp [eventLoop, EventLoop.new, lastEffect, effects]
  · simp
  · intro tr s a s' es _ ih _ hs
    rcases eventLoop_cases hs with ⟨d, -, hexec⟩ | ⟨k, hwork⟩ | ⟨c, rfl, rfl⟩
    · exact ih.exec hhome hexec
    · exact ih.work hhome hwork
    · exact ih.quiet rfl rfl nofun

-- ---------------------------------------------------------------------------
-- The order of a client's calls
-- ---------------------------------------------------------------------------

def calls (c : Caller) (key : BitVec 64) (tr : List (LoopEv n)) : List ServiceOp :=
  tr.filterMap fun
    | .called c' op => if c' = c ∧ op.key = key then some op else none
    | _ => none

def begun (c : Caller) (key : BitVec 64) (tr : List (LoopEv n)) : List ServiceOp :=
  tr.filterMap fun
    | .begun _ c' op _ => if c' = c ∧ op.key = key then some op else none
    | _ => none

@[simp] theorem calls_append (c : Caller) (key : BitVec 64) (tr tr' : List (LoopEv n)) :
    calls c key (tr ++ tr') = calls c key tr ++ calls c key tr' := List.filterMap_append

@[simp] theorem begun_append (c : Caller) (key : BitVec 64) (tr tr' : List (LoopEv n)) :
    begun c key (tr ++ tr') = begun c key tr ++ begun c key tr' := List.filterMap_append

def LoopTask.callOf (c : Caller) (key : BitVec 64) : LoopTask → Option ServiceOp
  | .config c' op => if c' = c ∧ op.key = key then some op else none
  | .processEvents => none

def TaskOk (n : BitVec 32) (c : Caller) (i : Fin (mSize n.toNat)) : LoopTask → Prop
  | .config c' op => c' = c ∧ (∀ k, c = .worker k → k ≠ i.val) ∧
      ∃ r, op.index n = some r ∧ i = queueIndex n.toNat r.toNat
  | .processEvents => True

structure LoopOk (s : EventLoop n) : Prop where
  dist : DistOk s.m_exec
  pool : PoolOk s.m_exec
  calls : ∀ c i t, s.m_exec.calls c = some (i, t) → TaskOk n c i t
  waiting : ∀ i, ∀ t ∈ s.m_exec.waiting i, ∃ c, TaskOk n c i t

theorem calls_called (c : Caller) (key : BitVec 64) (t : LoopTask) :
    calls c key (EventLoop.called t : List (LoopEv n)) = (t.callOf c key).toList := by
  cases t with
  | config c' op =>
    simp only [calls, EventLoop.called, LoopTask.callOf, List.filterMap_cons, List.filterMap_nil]
    split <;> simp [*]
  | processEvents => rfl

theorem begun_called (c : Caller) (key : BitVec 64) (t : LoopTask) :
    begun c key (EventLoop.called t : List (LoopEv n)) = [] := by
  cases t <;> rfl

theorem beginTask_shows (hs : s.beginTask t = some (s', es)) (c : Caller) (key : BitVec 64) :
    s'.m_exec = s.m_exec ∧ calls c key es = [] ∧ begun c key es = (t.callOf c key).toList := by
  cases t with
  | config c' op =>
    have hone (i res) : begun c key [(.begun i c' op res : LoopEv n)] =
        ((LoopTask.config c' op).callOf c key).toList := by
      simp only [begun, LoopTask.callOf, List.filterMap_cons, List.filterMap_nil]
      split <;> simp [*]
    obtain ⟨i, -, hruns⟩ := beginOp_runs hs
    cases hruns with
    | deletes => exact ⟨rfl, rfl, hone i none⟩
    | _ => exact ⟨rfl, rfl, hone i _⟩
  | processEvents =>
    cases hs
    exact ⟨rfl, rfl, rfl⟩

theorem leave_shows (hs : s.leave k = some (s', es)) (c : Caller) (key : BitVec 64) :
    s'.m_exec = s.m_exec ∧ calls c key es = [] ∧ begun c key es = [] := by
  unfold EventLoop.leave at hs
  split at hs
  · obtain ⟨_, _, _, _, -, -, rfl, rfl⟩ | ⟨-, rfl, rfl⟩ := endTask_cases hs
    · exact ⟨rfl, rfl, rfl⟩
    · exact ⟨rfl, rfl, rfl⟩
  · cases hs
    exact ⟨rfl, rfl, rfl⟩

def callsOf (c : Caller) (key : BitVec 64) : DistEv n.toNat LoopTask → List ServiceOp
  | .accepted _ _ t | .inplace _ t => (t.callOf c key).toList
  | _ => []

def begunOf (c : Caller) (key : BitVec 64) : DistEv n.toNat LoopTask → List ServiceOp
  | .executed _ t | .inplace _ t => (t.callOf c key).toList
  | _ => []

theorem note_shows (hs : s.note e = some (s', es)) (c : Caller) (key : BitVec 64) :
    s'.m_exec = s.m_exec ∧ calls c key es = callsOf c key e ∧ begun c key es = begunOf c key e := by
  cases e with
  | refused c' =>
    cases hs
    exact ⟨rfl, rfl, rfl⟩
  | accepted c' i t =>
    cases hs
    exact ⟨rfl, calls_called c key t, begun_called c key t⟩
  | executed k t => exact beginTask_shows hs c key
  | inplace k t =>
    simp only [EventLoop.note, Option.bind_eq_bind, Option.bind_eq_some_iff] at hs
    obtain ⟨⟨s₁, es₁⟩, hbegin, hs⟩ := hs
    cases hs
    obtain ⟨hexec, hcalls, hbegun⟩ := beginTask_shows hbegin c key
    refine ⟨hexec, ?_, ?_⟩
    · rw [calls_append, hcalls, calls_called, List.append_nil]
      rfl
    · rw [begun_append, hbegun, begun_called, List.nil_append]
      rfl

theorem noteAll_shows (hs : s.noteAll des = some (s', es)) (c : Caller) (key : BitVec 64) :
    s'.m_exec = s.m_exec ∧ calls c key es = des.flatMap (callsOf c key) ∧
      begun c key es = des.flatMap (begunOf c key) := by
  induction des generalizing s es with
  | nil =>
    cases hs
    exact ⟨rfl, rfl, rfl⟩
  | cons e des ih =>
    simp only [EventLoop.noteAll, Option.bind_eq_bind, Option.bind_eq_some_iff] at hs
    obtain ⟨⟨s₁, es₁⟩, hnote, ⟨s₂, es₂⟩, hrest, hs⟩ := hs
    cases hs
    obtain ⟨hexec, hcalls, hbegun⟩ := note_shows hnote c key
    obtain ⟨hexec', hcalls', hbegun'⟩ := ih hrest
    refine ⟨hexec'.trans hexec, ?_, ?_⟩
    · rw [calls_append, hcalls, hcalls', List.flatMap_cons]
    · rw [begun_append, hbegun, hbegun', List.flatMap_cons]

theorem exec_shows (hs : s.exec d = some (s', es)) :
    ∃ des, (taskDistributor n.toNat LoopTask).step s.m_exec d = some (s'.m_exec, des) ∧
      ∀ c key, calls c key es = des.flatMap (callsOf c key) ∧
        begun c key es = des.flatMap (begunOf c key) := by
  simp only [EventLoop.exec, Option.bind_eq_bind, Option.bind_eq_some_iff] at hs
  obtain ⟨⟨exec, des⟩, hstep, hs⟩ := hs
  obtain ⟨hexec, -⟩ := noteAll_shows hs (.external 0) 0
  refine ⟨des, ?_, fun c key => (noteAll_shows hs c key).2⟩
  rw [hstep, hexec]

structure Allowed (s : EventLoop n) (d : DistAct LoopTask) : Prop where
  once : StartOnce s.m_exec d
  begins : ∀ c i t, Begins c i t d → TaskOk n c i t
  inplace : ∀ k t index, d = .addTaskASAP (.worker k) (some t) index →
    ∃ op r, t = .config (.worker k) op ∧ op.index n = some r ∧ r.toNat = index

theorem Issues.allowed (h : Issues s d) : Allowed s d := by
  cases h with
  | start hpool => exact ⟨hpool, nofun, nofun⟩
  | @call op r c hr =>
    refine ⟨trivial, ?_, ?_⟩
    · intro c' i t hbegins
      cases hbegins with
      | addTaskASAP hi hne => exact ⟨rfl, hne, r, hr, hi⟩
    · rintro k t index ⟨⟩
      exact ⟨op, r, rfl, hr, rfl⟩
  | startNextStep c index =>
    refine ⟨trivial, ?_, nofun⟩
    intro c' i t hbegins
    cases hbegins
    trivial
  | pushBack | shutdown | control => exact ⟨trivial, nofun, nofun⟩

theorem allowed_worker (s : EventLoop n) (k : Nat) : Allowed s (.worker k) := ⟨trivial, nofun, nofun⟩

theorem LoopOk.exec (h : LoopOk s) (hd : Allowed s d) (hs : s.exec d = some (s', es)) : LoopOk s' := by
  obtain ⟨des, hstep, -⟩ := exec_shows hs
  refine ⟨(taskDistributor_step h.dist hd.once hstep).1, poolOk_step h.dist h.pool hd.once hstep, ?_, ?_⟩
  · intro c i t hcall
    rcases calls_step h.dist h.pool hstep hcall with hold | hbegins
    · exact h.calls c i t hold
    · exact hd.begins c i t hbegins
  · intro i t ht
    have hwaiting := waiting_step h.dist hd.once hstep i
    have hmem : t ∈ s.m_exec.waiting i ++ accepted i des := by
      rw [hwaiting]
      exact List.mem_append_right _ ht
    rcases List.mem_append.mp hmem with hold | hnew
    · exact h.waiting i t hold
    · cases taskDistributor_shown h.dist hstep with
      | @accepted c j t' hcall =>
        simp only [accepted] at hnew
        split at hnew
        · rename_i hj
          obtain rfl := List.mem_singleton.mp hnew
          exact ⟨c, hj ▸ h.calls c j t hcall⟩
        · cases hnew
      | _ => cases hnew

def waitingOf (s : EventLoop n) (i : Fin (mSize n.toNat)) (c : Caller) (key : BitVec 64) : List ServiceOp :=
  (s.m_exec.waiting i).filterMap (LoopTask.callOf c key)

def HomeQueue (key : BitVec 64) (i : Fin (mSize n.toNat)) : Prop :=
  ∀ (op : ServiceOp) (r : BitVec 32), op.key = key → op.index n = some r → i = queueIndex n.toNat r.toNat

theorem callOf_eq_some (h : LoopTask.callOf c key t = some op) : t = .config c op ∧ op.key = key := by
  cases t with
  | config c' op' =>
    simp only [LoopTask.callOf, Option.ite_none_right_eq_some] at h
    obtain ⟨⟨rfl, hkey⟩, h⟩ := h
    cases h
    exact ⟨rfl, hkey⟩
  | processEvents => cases h

theorem HomeQueue.callOf {i j : Fin (mSize n.toNat)} (hi : HomeQueue key i) (ht : TaskOk n c' j t)
    (hne : j ≠ i) (c : Caller) : t.callOf c key = none := by
  rw [Option.eq_none_iff_forall_ne_some]
  intro op hop
  obtain ⟨rfl, hkey⟩ := callOf_eq_some hop
  obtain ⟨-, -, r, hr, hj⟩ := ht
  exact hne (hj.trans (hi op r hkey hr).symm)

theorem LoopOk.own {i : Fin (mSize n.toNat)} (h : LoopOk s) (hk : k = i.val) (key : BitVec 64) :
    waitingOf s i (.worker k) key = [] := by
  rw [waitingOf, List.filterMap_eq_nil_iff]
  intro t ht
  rw [Option.eq_none_iff_forall_ne_some]
  intro op hop
  obtain ⟨rfl, -⟩ := callOf_eq_some hop
  obtain ⟨c, rfl, hne, -⟩ := h.waiting i _ ht
  exact hne k rfl hk

theorem exec_order {i : Fin (mSize n.toNat)} (h : LoopOk s) (hd : Allowed s d) (hi : HomeQueue key i)
    (hs : s.exec d = some (s', es)) (c : Caller) :
    waitingOf s i c key ++ calls c key es = begun c key es ++ waitingOf s' i c key := by
  obtain ⟨des, hstep, hshows⟩ := exec_shows hs
  obtain ⟨hcalls, hbegun⟩ := hshows c key
  have hwaiting := waiting_step h.dist hd.once hstep
  have hwaiting' : waitingOf s i c key ++ (accepted i des).filterMap (LoopTask.callOf c key) =
      (executed i.val des).filterMap (LoopTask.callOf c key) ++ waitingOf s' i c key := by
    rw [waitingOf, waitingOf, ← List.filterMap_append, hwaiting i, List.filterMap_append]
  rw [hcalls, hbegun]
  cases taskDistributor_shown h.dist hstep with
  | nothing => exact hwaiting'
  | refused c' => exact hwaiting'
  | @accepted c' j t hcall =>
    have haccepted : (accepted i [DistEv.accepted c' j t]).filterMap (LoopTask.callOf c key) =
        (t.callOf c key).toList := by
      simp only [accepted]
      split
      · cases hop : t.callOf c key <;> simp [hop]
      · rename_i hne
        simp [hi.callOf (h.calls c' j t hcall) hne c]
    rw [haccepted] at hwaiting'
    simpa [callsOf, begunOf, executed] using hwaiting'
  | @executed k t hk =>
    have hexecuted : (executed i.val [(DistEv.executed k t : DistEv n.toNat LoopTask)]).filterMap
        (LoopTask.callOf c key) = (t.callOf c key).toList := by
      simp only [executed]
      split
      · cases hop : t.callOf c key <;> simp [hop]
      · rename_i hne
        obtain ⟨c', htask⟩ := h.waiting _ t (executed_waited h.dist hd.once hstep hk)
        simp [hi.callOf htask (fun heq => hne (congrArg Fin.val heq)) c]
    rw [hexecuted] at hwaiting'
    simpa [callsOf, begunOf, accepted] using hwaiting'
  | @inplace k t index tpool ha hpool hk =>
    have hsame : waitingOf s i c key = waitingOf s' i c key := by
      simpa [accepted, executed] using hwaiting'
    have hcomm : waitingOf s i c key ++ (t.callOf c key).toList =
        (t.callOf c key).toList ++ waitingOf s i c key := by
      cases hop : t.callOf c key with
      | none => simp
      | some op =>
        -- the worker runs its own call at once, so none of its calls may wait
        obtain ⟨rfl, hkey⟩ := callOf_eq_some hop
        obtain ⟨op', r, heq, hr, rfl⟩ := hd.inplace k _ index ha
        cases heq
        obtain rfl := hi op r hkey hr
        simp [h.own (h.pool.own tpool _ k hpool hk)]
    rw [← hsame]
    simpa [callsOf, begunOf] using hcomm

theorem LoopOk.same (h : LoopOk s) (hexec : s'.m_exec = s.m_exec) : LoopOk s' := by
  refine ⟨hexec ▸ h.dist, hexec ▸ h.pool, ?_, ?_⟩
  · rw [hexec]
    exact h.calls
  · rw [hexec]
    exact h.waiting

theorem loopOk_init (n : BitVec 32) : LoopOk (EventLoop.new n) :=
  ⟨⟨fun _ => rfl, nofun, nofun, fun _ => trivial⟩, ⟨nofun, nofun⟩, nofun, nofun⟩

def InOrder (key : BitVec 64) (i : Fin (mSize n.toNat)) (tr : List (LoopEv n)) (s : EventLoop n) : Prop :=
  ∀ c, calls c key tr = begun c key tr ++ waitingOf s i c key

theorem InOrder.exec {i : Fin (mSize n.toNat)} (h : InOrder key i tr s) (hok : LoopOk s) (hd : Allowed s d)
    (hi : HomeQueue key i) (hs : s.exec d = some (s', es)) : InOrder key i (tr ++ es) s' := by
  intro c
  rw [calls_append, begun_append, h c, List.append_assoc, List.append_assoc, exec_order hok hd hi hs c]

theorem InOrder.quiet {i : Fin (mSize n.toNat)} (h : InOrder key i tr s) (hexec : s'.m_exec = s.m_exec)
    (hes : ∀ c, calls c key es = [] ∧ begun c key es = []) : InOrder key i (tr ++ es) s' := by
  intro c
  obtain ⟨hcalls, hbegun⟩ := hes c
  rw [calls_append, begun_append, hcalls, hbegun, List.append_nil, List.append_nil, h c, waitingOf,
    waitingOf, hexec]

theorem inOrder_run {i : Fin (mSize n.toNat)} (hi : HomeQueue key i) (h : (eventLoop n).Run tr s) :
    LoopOk s ∧ InOrder key i tr s := by
  refine h.invariant (I := fun tr s => LoopOk s ∧ InOrder key i tr s) ⟨loopOk_init n, fun _ => rfl⟩ ?_
  rintro tr s a s' es - ⟨hok, ih⟩ - hs
  rcases eventLoop_cases hs with ⟨d, hissues, hexec⟩ | ⟨k, hwork⟩ | ⟨c, rfl, rfl⟩
  · exact ⟨hok.exec hissues.allowed hexec, ih.exec hok hissues.allowed hi hexec⟩
  · simp only [EventLoop.work, Option.bind_eq_bind, Option.bind_eq_some_iff] at hwork
    obtain ⟨⟨s₁, es₁⟩, hleave, ⟨s₂, es₂⟩, hexec, hwork⟩ := hwork
    cases hwork
    have hsame := (leave_shows hleave (.external 0) key).1
    have hok₁ := hok.same hsame
    refine ⟨hok₁.exec (allowed_worker s₁ k) hexec, ?_⟩
    rw [← List.append_assoc]
    exact (ih.quiet hsame fun c => (leave_shows hleave c key).2).exec hok₁ (allowed_worker s₁ k) hi hexec
  · exact ⟨hok, ih.quiet rfl fun _ => ⟨rfl, rfl⟩⟩

-- ---------------------------------------------------------------------------
-- Finding what was added
-- ---------------------------------------------------------------------------

theorem begun_split (h : begun c key tr = l₁ ++ op :: l₂) :
    op.key = key ∧ ∃ t₁ i res t₂, tr = t₁ ++ .begun i c op res :: t₂ ∧ begun c key t₁ = l₁ ∧
      begun c key t₂ = l₂ := by
  obtain ⟨t₁, t, rfl, h₁, h⟩ := List.filterMap_eq_append_iff.mp h
  obtain ⟨t', e, t₂, rfl, hnone, he, h₂⟩ := List.filterMap_eq_cons_iff.mp h
  have ht' : begun c key t' = [] := List.filterMap_eq_nil_iff.mpr hnone
  cases e with
  | begun i c' op' res =>
    simp only [Option.ite_none_right_eq_some] at he
    obtain ⟨⟨rfl, hkey⟩, he⟩ := he
    cases he
    refine ⟨hkey, t₁ ++ t', i, res, t₂, by simp, ?_, h₂⟩
    rw [begun_append, ht', List.append_nil]
    exact h₁
  | _ => cases he

structure KeyOk (key : BitVec 64) (tr : List (LoopEv n)) (s : EventLoop n) : Prop where
  one : ∀ i j, (s.m_pdata i)[key.toInt]?.isSome → (s.m_pdata j)[key.toInt]?.isSome → i = j
  order : ∀ c, begun c key tr <+: calls c key tr
  added : ∀ c l₁ service l₂ l₃,
    calls c key tr = l₁ ++ .addService service :: (l₂ ++ .findService key :: l₃) →
    l₁.length + l₂.length + 1 < (begun c key tr).length →
    ∃ (t₁ : List (LoopEv n)) (i : Fin n.toNat) (r : Option EventsService) (t₂ : List (LoopEv n))
        (j : Fin n.toNat) (res : Option EventsService) (t₃ : List (LoopEv n)),
      tr = t₁ ++ .begun i c (.addService service) r :: (t₂ ++ .begun j c (.findService key) res :: t₃) ∧
      begun c key t₁ = l₁ ∧ begun c key t₂ = l₂ ∧
      (none ∉ effects key t₂ →
        ∃ service', res = some service' ∧ (service' = service ∨ some service' ∈ effects key t₂))

/-- What a find sees after an add: no service but the added one or a later one. -/
theorem Registry.found_added {t₁ t₂ t₃ : List (LoopEv n)} (h : Registry key home tr s)
    (htr : tr = t₁ ++ .begun i c (.addService service) r ::
      (t₂ ++ .begun j c' (.findService key) res :: t₃))
    (hkey : service.m_key = key) (hdel : none ∉ effects key t₂) :
    ∃ service', res = some service' ∧ (service' = service ∨ some service' ∈ effects key t₂) := by
  have hres : res = lastEffect key (t₁ ++ .begun i c (.addService service) r :: t₂) :=
    h.found _ j c' res t₃ (by simp [htr])
  have heffects : effects key (t₁ ++ .begun i c (.addService service) r :: t₂) =
      effects key t₁ ++ some service :: effects key t₂ := by
    simp [effects, LoopEv.effect, ServiceOp.key, ServiceOp.stores, hkey]
  rw [hres, lastEffect, heffects]
  cases hlast : (effects key t₂).getLast? with
  | none => exact ⟨service, by simp [List.getLast?_cons, hlast], .inl rfl⟩
  | some v =>
    have hmem := List.mem_of_getLast? hlast
    cases v with
    | none => exact absurd hmem hdel
    | some service' => exact ⟨service', by simp [List.getLast?_cons, hlast], .inr hmem⟩

structure LivesAt (key : BitVec 64) (i : Fin (mSize n.toNat)) (home : Fin n.toNat) : Prop where
  slot : ∀ op : ServiceOp, op.key = key → EventLoop.slot n op = some home
  queue : HomeQueue key i
  thread : i.val = home.val

theorem livesAt (hn : 0 < n.toInt) (hkey : SameThread n key) : ∃ i home, LivesAt (n := n) key i home := by
  obtain ⟨r, home, hr, hslot, hrhome⟩ := slot_eq hn (.findService key)
  refine ⟨queueIndex n.toNat r.toNat, home, ?_, ?_, ?_⟩
  · intro op hop
    exact (hkey op (.findService key) hop rfl).trans hslot
  · intro op r' hop hr'
    have hindex := slot_inj hn (hkey op (.findService key) hop rfl)
    rw [hr, hr'] at hindex
    rw [Option.some.inj hindex]
  · rw [hrhome]
    exact queueIndex_val home.isLt

theorem keyOk_run (hn : 0 < n.toInt) (hkey : SameThread n key) (h : (eventLoop n).Run tr s) :
    KeyOk key tr s := by
  obtain ⟨i, home, hi⟩ := livesAt hn hkey
  have hregistry := registry_run hi.slot h
  have horder := (inOrder_run hi.queue h).2
  have hbegins : ∀ c, begun c key tr <+: calls c key tr := fun c => ⟨_, (horder c).symm⟩
  refine ⟨?_, hbegins, ?_⟩
  · intro i j hi hj
    rw [hregistry.content] at hi hj
    have hhome_of {i : Fin n.toNat} (hi : (if i = home then lastEffect key tr else none).isSome) :
        i = home := by
      by_contra hne
      rw [if_neg hne] at hi
      cases hi
    exact (hhome_of hi).trans (hhome_of hj).symm
  · intro c l₁ service l₂ l₃ hcalls hlength
    have hprefix : l₁ ++ .addService service :: (l₂ ++ [.findService key]) <+: begun c key tr := by
      refine List.prefix_of_prefix_length_le ?_ (hbegins c) ?_
      · rw [hcalls]
        exact ⟨l₃, by simp⟩
      · simp only [List.length_append, List.length_cons, List.length_nil]
        omega
    obtain ⟨l, hbegun⟩ := hprefix
    rw [List.append_assoc, List.cons_append, List.append_assoc] at hbegun
    obtain ⟨hservice, t₁, i, r, t, rfl, h₁, ht⟩ := begun_split hbegun.symm
    obtain ⟨-, t₂, j, res, t₃, rfl, h₂, -⟩ := begun_split ht
    exact ⟨t₁, i, r, t₂, j, res, t₃, rfl, h₁, h₂, hregistry.found_added rfl hservice⟩

end

/-- The four calls for a key use one registry, every run has the key in one at
most, and a find after an add by one client finds the service unless it was
deleted in between, just when the two readings of the key select one thread. -/
theorem eventLoop_agrees_on_threads (n : BitVec 32) (hn : 0 < n.toInt) (key : BitVec 64) :
    (SameThread n key ∧ ∀ tr s, (eventLoop n).Run tr s → KeyOk key tr s) ↔ Agrees n key := by
  rw [← sameThread_iff hn key]
  exact ⟨And.left, fun hsame => ⟨hsame, fun _ _ h => keyOk_run hn hsame h⟩⟩

instance (n : BitVec 32) (key : BitVec 64) : Decidable (Agrees n key) :=
  inferInstanceAs (Decidable (0 ≤ key.toInt ∨ n.toInt ∣ 2 ^ 64 + 2 * key.toInt))

theorem eventLoop_agrees_on_threads_run : SameThread 3 (-2) ∧ ∃ tr s, (eventLoop 3).Run tr s ∧
    .begun ⟨2, by decide⟩ (.external 0) (.findService (-2)) (some ⟨1, -2⟩) ∈ tr ∧ KeyOk (-2) tr s := by
  have hr : ((eventLoop 3).replay (EventLoop.new 3)
      [.construct, .control, .control, .control, .control,
        .call (.external 0) (some (.addService ⟨1, -2⟩)), .pushBack (.external 0),
        .worker 2, .worker 2, .worker 2, .worker 2, .worker 2, .worker 2,
        .call (.external 0) (some (.findService (-2))), .pushBack (.external 0),
        .worker 2, .worker 2, .worker 2, .worker 2, .worker 2, .worker 2, .worker 2, .worker 2]).isSome := rfl
  have hrun := Machine.steps_of_replay (Option.some_get hr).symm
  obtain ⟨hsame, hok⟩ := (eventLoop_agrees_on_threads 3 (by decide) (-2)).mpr (by decide)
  exact ⟨hsame, _, _, hrun, by decide, hok _ _ hrun⟩

/-- Three threads and the key -1: the add goes to thread 0, the find that
follows it and a modify go to thread 1. -/
theorem eventLoop_splits_key : ¬ SameThread 3 (-1) ∧ ∃ tr s, (eventLoop 3).Run tr s ∧
    calls (.external 0) (-1) tr = [.addService ⟨1, -1⟩, .findService (-1), .modService ⟨1, -1⟩] ∧
    .begun ⟨1, by decide⟩ (.external 0) (.findService (-1)) none ∈ tr ∧
    (s.m_pdata ⟨0, by decide⟩)[(-1 : Int)]? = some ⟨1, -1⟩ ∧ (s.m_pdata ⟨1, by decide⟩)[(-1 : Int)]? = some ⟨1, -1⟩ := by
  have hr : ((eventLoop 3).replay (EventLoop.new 3)
      [.construct, .control, .control, .control, .control,
        .call (.external 0) (some (.addService ⟨1, -1⟩)), .pushBack (.external 0),
        .worker 0, .worker 0, .worker 0, .worker 0, .worker 0, .worker 0,
        .call (.external 0) (some (.findService (-1))), .pushBack (.external 0),
        .call (.external 0) (some (.modService ⟨1, -1⟩)), .pushBack (.external 0),
        .worker 1, .worker 1, .worker 1, .worker 1, .worker 1, .worker 1, .worker 1, .worker 1]).isSome := rfl
  refine ⟨fun h => ?_, _, _, Machine.steps_of_replay (Option.some_get hr).symm, by decide, by decide,
    by decide, by decide⟩
  exact absurd (h (.addService ⟨1, -1⟩) (.findService (-1)) rfl rfl) (by decide)

end Andren.Network
