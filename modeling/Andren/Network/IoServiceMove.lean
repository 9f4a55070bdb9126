import Andren.Network.IoService
import Std.Data.TreeMap.Lemmas

/-!
# Moving an io_uring service

The closures that `init` makes, and those in the request queue, hold the
address of the object that made them. A move takes the closures along and not
the object: the target of a move works on the source, which has no ring any
more. The move constructor takes the queue too; the assignment destroys the
target's queue and leaves the source's where it is, so that its target accepts
nothing (`ioService_move_breaks`).
-/

namespace Andren.Network

open Base

open Std (TreeMap)

variable {D : Type}

/-- A closure of `submitRequest`; `self` is the object it captured. -/
structure RequestClosure (D : Type) where
  self : Nat
  uid : Nat
  sp_context : IoContext D

/-- An `IOService` object. The notifier and the events handler are given by the
object that they captured; `m_uring` is the number of a ring. -/
structure ServiceObject (D : Type) where
  m_processor : Option Nat
  m_handler : Option Nat
  m_fds_context : TreeMap Nat Addr
  m_request_submit_queue : Option (List (RequestClosure D))
  m_size : BitVec 32
  m_used : BitVec 32
  m_uring : Option Nat

structure Ring (D : Type) where
  entries : Nat
  sq : List (Sqe D)
  inflight : List (Sqe D)
  cq : List (Cqe D)

/-- The objects that are alive, the rings, and the nodes of the maps. -/
structure Services (D : Type) where
  objects : Nat → Option (ServiceObject D)
  rings : Nat → Option (Ring D)
  nodes : Addr → Option (IoContext D)

/-- What the allocator, the kernel and the callbacks do during one processing
step: where a new node for a uid is put, what `io_uring_submit` returns, which
SQEs complete before the wait returns, and for each event what `onEvents`
returns and leaves in the context. -/
structure KernelTick (D : Type) where
  place : Nat → Addr
  submitted : Option Nat
  completed : List (Nat × Int)
  waited : Bool
  onEvents : Nat → Bool × IoContext D

namespace Ring

def submit (ring : Ring D) (k : Nat) : Ring D :=
  { ring with sq := ring.sq.drop k, inflight := ring.inflight ++ ring.sq.take k }

def complete (ring : Ring D) (c : Nat × Int) : Ring D :=
  match ring.inflight[c.1]? with
  | some sqe => { ring with inflight := ring.inflight.eraseIdx c.1, cq := ring.cq ++ [⟨sqe, c.2⟩] }
  | none => ring

end Ring

def ServiceObject.sqe_used (s : ServiceObject D) : BitVec 32 := s.m_size

namespace Services

def set (w : Services D) (o : Nat) (s : ServiceObject D) : Services D :=
  { w with objects := Function.update w.objects o (some s) }

def setRing (w : Services D) (r : Nat) (ring : Ring D) : Services D :=
  { w with rings := Function.update w.rings r (some ring) }

def setNode (w : Services D) (a : Addr) (context : IoContext D) : Services D :=
  { w with nodes := Function.update w.nodes a (some context) }

/-- The constructor, with a new ring that has room for `entries` SQEs. -/
def construct (w : Services D) (o : Nat) (entries_size : BitVec 32) (r entries : Nat) : Option (Services D) :=
  if (w.objects o).isSome ∨ (w.rings r).isSome then none
  else some ((w.setRing r ⟨entries, [], [], []⟩).set o ⟨none, none, ∅, some [], entries_size, 0, some r⟩)

def init (w : Services D) (o : Nat) : Option (Services D) := do
  let s ← w.objects o
  pure (w.set o { s with m_processor := some o, m_handler := some o })

def submitRequest (w : Services D) (o uid : Nat) (context : IoContext D) : Option (Services D × Bool) := do
  let s ← w.objects o
  match s.m_uring, s.m_request_submit_queue with
  | some _, some fns => pure (w.set o { s with m_request_submit_queue := some (fns ++ [⟨o, uid, context⟩]) }, true)
  | _, _ => pure (w, false)

def prepare (w : Services D) (o uid : Nat) (a : Addr) (context : IoContext D) : Option (Services D × Bool) := do
  let s ← w.objects o
  match s.m_uring with
  | none => pure (w, false)
  | some r =>
    let ring ← w.rings r
    if ring.sq.length < ring.entries then
      let w := w.setRing r { ring with sq := ring.sq ++ [⟨uid, context, a⟩] }
      pure (w.set o { s with m_used := s.m_used + 1 }, true)
    else pure (w, false)

def submitRequest_Private (w : Services D) (fn : RequestClosure D) (place : Addr) :
    Option (Services D × Bool) := do
  let s ← w.objects fn.self
  let a ← match s.m_fds_context[fn.uid]? with
    | some a => some a
    | none => if w.nodes place = none ∧ place.valid then some place else none
  let w := (w.set fn.self { s with m_fds_context := s.m_fds_context.insert fn.uid a }).setNode a fn.sp_context
  let request ← fn.sp_context.req_context
  if request.req.prepares then w.prepare fn.self fn.uid a fn.sp_context else pure (w, false)

def runAll (w : Services D) (place : Nat → Addr) : List (RequestClosure D) → Option (Services D)
  | [] => some w
  | fn :: fns => do
    -- the closure drops what `submitRequest_Private` returns
    let (w, _) ← w.submitRequest_Private fn (place fn.uid)
    w.runAll place fns

def working_request (w : Services D) (self : Nat) (place : Nat → Addr) : Option (Services D) := do
  let s ← w.objects self
  match s.m_request_submit_queue with
  | none => pure w
  | some fns => (w.set self { s with m_request_submit_queue := some [] }).runAll place fns

/-- The notifier. A null ring or one that was exited is not to be used. -/
def notifier (w : Services D) (self : Nat) (k : KernelTick D) : Option (Services D × List (Addr × Int)) := do
  let w ← w.working_request self k.place
  let s ← w.objects self
  if s.sqe_used ≤ 0 then pure (w, [])
  else
    let r ← s.m_uring
    let ring ← w.rings r
    match k.submitted with
    | none => pure (w, [])
    | some n =>
      let ring := k.completed.foldl Ring.complete (ring.submit n)
      if k.waited then
        let w := w.setRing r { ring with cq := [] }
        let w := w.set self { s with m_used := s.m_used - BitVec.ofNat 32 ring.cq.length }
        pure (w, (ring.cq.filter fun e => e.sqe.user_data.valid).map fun e => (e.sqe.user_data, e.res))
      else pure (w.setRing r ring, [])

def handler (w : Services D) (self : Nat) (e : Addr × Int) (ret : Bool × IoContext D) :
    Option (Services D × List (Nat × IoContext D × Int)) :=
  if e.1 = 0 then some (w, [])
  else do
    let context ← w.nodes e.1
    let request ← context.req_context
    let s ← w.objects self
    let iter := s.m_fds_context[request.uid]?
    let (bret, left) := if context.onEvents.isSome then ret else (true, context)
    let w := w.setNode e.1 left
    if bret then
      let a ← iter
      let w := w.set self { s with m_fds_context := s.m_fds_context.erase request.uid }
      pure ({ w with nodes := Function.update w.nodes a none }, [(request.uid, context, e.2)])
    else pure (w, [(request.uid, context, e.2)])

def handleAll (w : Services D) (self : Nat) (onEvents : Nat → Bool × IoContext D) (i : Nat) :
    List (Addr × Int) → Option (Services D × List (Nat × IoContext D × Int))
  | [] => some (w, [])
  | e :: es => do
    let (w, seen) ← w.handler self e (onEvents i)
    let (w, seen') ← w.handleAll self onEvents (i + 1) es
    pure (w, seen ++ seen')

def processEvents (w : Services D) (o : Nat) (k : KernelTick D) :
    Option (Services D × List (Nat × IoContext D × Int)) := do
  let s ← w.objects o
  match s.m_processor with
  | none => pure (w, [])
  | some self =>
    let (w, events) ← w.notifier self k
    match s.m_handler with
    | none => pure (w, [])
    | some self => w.handleAll self k.onEvents 0 events

def moveConstruct (w : Services D) (o ios : Nat) : Option (Services D) := do
  let s ← w.objects ios
  if (w.objects o).isSome then none
  else
    let w := w.set ios { s with
      m_processor := none, m_handler := none, m_fds_context := ∅, m_request_submit_queue := none, m_uring := none }
    pure (w.set o s)

/-- `~IOService`: the ring is exited, and the nodes of the map go with it. -/
def destroy (w : Services D) (t : ServiceObject D) : Services D where
  objects := w.objects
  rings := match t.m_uring with
    | some r => Function.update w.rings r none
    | none => w.rings
  nodes := fun a => if a ∈ t.m_fds_context.values then none else w.nodes a

/-- `operator=` with another object: the target is destroyed, its queue with it,
and gets the closures, the map and the ring of the source. -/
def moveAssign (w : Services D) (o ios : Nat) : Option (Services D) := do
  let t ← w.objects o
  let s ← w.objects ios
  if o = ios then none
  else
    let w := (w.destroy t).set ios { s with
      m_processor := none, m_handler := none, m_fds_context := ∅, m_uring := none }
    pure (w.set o { t with
      m_processor := s.m_processor, m_handler := s.m_handler, m_fds_context := s.m_fds_context,
      m_request_submit_queue := none, m_uring := s.m_uring })

-- ---------------------------------------------------------------------------
-- What a working service does
-- ---------------------------------------------------------------------------

def Initialised (w : Services D) (o : Nat) : Prop :=
  ∃ s, w.objects o = some s ∧ s.m_processor = some o ∧ s.m_handler = some o

/-- The object accepts requests, some processing step drains its queue, and for
each CQE in its ring that belongs to a request some step calls the callback. -/
structure Works (w : Services D) (o : Nat) : Prop where
  accepts : ∀ uid context, ∃ w', w.submitRequest o uid context = some (w', true)
  drains : ∀ uid context w', context.req_context ≠ none → w.submitRequest o uid context = some (w', true) →
    ∃ k w'' seen s, w'.processEvents o k = some (w'', seen) ∧ w''.objects o = some s ∧
      s.m_request_submit_queue = some []
  handles : ∀ s r ring e context request, w.objects o = some s → s.m_uring = some r → w.rings r = some ring →
    e ∈ ring.cq → e.sqe.user_data.valid → w.nodes e.sqe.user_data = some context →
    context.req_context = some request → ∃ k w' seen, w.processEvents o k = some (w', seen) ∧
      (request.uid, context, e.res) ∈ seen

structure Quiet (w : Services D) (o : Nat) : Prop where
  refuses : ∀ uid context, w.submitRequest o uid context = some (w, false)
  rests : ∀ k, w.processEvents o k = some (w, [])

@[simp] theorem set_self (w : Services D) (o : Nat) (s : ServiceObject D) : (w.set o s).objects o = some s :=
  Function.update_self ..

theorem set_ne {o o' : Nat} (h : o' ≠ o) (w : Services D) (s : ServiceObject D) :
    (w.set o s).objects o' = w.objects o' := Function.update_of_ne h ..

theorem submitRequest_Private_runs {w : Services D} {f : RequestClosure D} {place : Addr} {r : Nat}
    (hs : w.objects f.self = some s) (huring : s.m_uring = some r) (hring : w.rings r = some ring)
    (hentry : s.m_fds_context[f.uid]? = none) (hplace : w.nodes place = none ∧ place.valid)
    (hrequest : f.sp_context.req_context ≠ none) : ∃ w' ret s' ring',
      w.submitRequest_Private f place = some (w', ret) ∧ w'.objects f.self = some s' ∧
        s'.m_request_submit_queue = s.m_request_submit_queue ∧ s'.m_uring = some r ∧ w'.rings r = some ring' := by
  obtain ⟨req, hreq⟩ := Option.ne_none_iff_exists'.mp hrequest
  simp only [submitRequest_Private, hs, hentry, if_pos hplace, hreq, Option.bind_eq_bind, Option.bind_some]
  split
  · have hsame : ∀ s', ((w.set f.self s').setNode place f.sp_context).objects f.self = some s' :=
      fun s' => set_self ..
    have hrings : ∀ s', ((w.set f.self s').setNode place f.sp_context).rings r = some ring := fun _ => hring
    simp only [prepare, hsame, huring, hrings, Option.bind_eq_bind, Option.bind_some]
    split
    · exact ⟨_, _, _, _, rfl, set_self .., rfl, rfl, Function.update_self ..⟩
    · exact ⟨_, _, _, _, rfl, hsame _, rfl, rfl, hring⟩
  · exact ⟨_, _, _, _, rfl, set_self .., rfl, huring, hring⟩

theorem processEvents_one {w : Services D} {k : KernelTick D} (hs : w.objects o = some s)
    (hprocessor : s.m_processor = some o) (hqueue : s.m_request_submit_queue = some [fn]) (hk : k.submitted = none)
    (hrun : (w.set o { s with m_request_submit_queue := some [] }).submitRequest_Private fn (k.place fn.uid) =
      some (w', ret))
    (hs' : w'.objects o = some s') (huring : s'.m_uring = some r) (hring : w'.rings r = some ring) :
    w.processEvents o k = some (w', []) := by
  have hnotifier : w.notifier o k = some (w', []) := by
    simp only [notifier, working_request, hs, hqueue, runAll, hrun, hs', huring, hring, hk, Option.bind_eq_bind,
      Option.bind_some]
    split <;> rfl
  simp only [processEvents, hs, hprocessor, hnotifier, Option.bind_eq_bind, Option.bind_some]
  cases s.m_handler <;> rfl

theorem works_new {w w₁ w₂ : Services D} (hfree : w.nodes place = none ∧ place.valid)
    (hnew : w.construct o entries_size r entries = some w₁) (hinit : w₁.init o = some w₂) : Works w₂ o := by
  obtain ⟨-, hnew⟩ := Option.ite_none_left_eq_some.mp hnew
  cases hnew
  simp only [init, set_self, Option.bind_eq_bind, Option.bind_some, Option.pure_def, Option.some.injEq] at hinit
  obtain ⟨s, hs, hprocessor, hmap, hqueue, huring⟩ : ∃ s, w₂.objects o = some s ∧ s.m_processor = some o ∧
      s.m_fds_context = ∅ ∧ s.m_request_submit_queue = some [] ∧ s.m_uring = some r :=
    ⟨_, hinit ▸ set_self .., rfl, rfl, rfl, rfl⟩
  have hring : w₂.rings r = some ⟨entries, [], [], []⟩ := hinit ▸ Function.update_self ..
  have hnode : w₂.nodes place = none := hinit ▸ hfree.1
  have haccepts : ∀ uid context, w₂.submitRequest o uid context =
      some (w₂.set o { s with m_request_submit_queue := some [⟨o, uid, context⟩] }, true) := by
    intro uid context
    simp only [submitRequest, hs, huring, hqueue, Option.bind_eq_bind, Option.bind_some]
    rfl
  refine ⟨fun uid context => ⟨_, haccepts uid context⟩, ?_, ?_⟩
  · intro uid context w' hrequest haccepted
    rw [haccepts] at haccepted
    cases haccepted
    obtain ⟨w', ret, s', ring', hrun, hs', hqueue', huring', hring'⟩ := submitRequest_Private_runs
      (w := (w₂.set o { s with m_request_submit_queue := some [⟨o, uid, context⟩] }).set o
        { s with m_request_submit_queue := some [] })
      (f := ⟨o, uid, context⟩) (set_self ..) huring hring (by simp [hmap]) ⟨hnode, hfree.2⟩ hrequest
    let k : KernelTick D := ⟨fun _ => place, none, [], false, fun _ => (true, context)⟩
    exact ⟨k, w', [], s', processEvents_one (set_self ..) hprocessor rfl rfl hrun hs' huring' hring', hs', hqueue'⟩
  · rintro s' r' ring e context req hs' huring' hring' he
    cases hs.symm.trans hs'
    cases huring.symm.trans huring'
    cases hring.symm.trans hring'
    cases he

theorem quiet_of_empty {w : Services D} (hs : w.objects o = some s) (hprocessor : s.m_processor = none)
    (huring : s.m_uring = none) : Quiet w o where
  refuses uid context := by simp [submitRequest, hs, huring]
  rests k := by simp [processEvents, hs, hprocessor]

/-- An object whose notifier captured an object without a queue and a ring: a
processing step does nothing, or it submits on a null ring. -/
theorem processEvents_captured {w : Services D} (hs : w.objects o = some s) (hprocessor : s.m_processor = some self)
    (ht : w.objects self = some t) (hqueue : t.m_request_submit_queue = none) (huring : t.m_uring = none)
    (h : w.processEvents o k = some (w', seen)) : t.m_size ≤ 0 ∧ w' = w ∧ seen = [] := by
  have hwork : w.working_request self k.place = some w := by simp [working_request, ht, hqueue]
  simp only [processEvents, hs, hprocessor, notifier, hwork, ht, ServiceObject.sqe_used, huring,
    Option.bind_eq_bind, Option.bind_some] at h
  split at h
  · rename_i hsize
    simp only [Option.pure_def, Option.bind_some] at h
    refine ⟨hsize, ?_⟩
    cases hhandler : s.m_handler with
    | none => simpa [hhandler, eq_comm] using h
    | some self' => simpa [hhandler, handleAll, eq_comm] using h
  · cases h

theorem moveConstruct_eq {w w' : Services D} (h : w.moveConstruct o ios = some w') :
    ∃ s, w.objects ios = some s ∧ o ≠ ios ∧ w'.objects o = some s ∧ w'.objects ios = some { s with
      m_processor := none, m_handler := none, m_fds_context := ∅, m_request_submit_queue := none,
      m_uring := none } := by
  obtain ⟨s, hs, h⟩ := Option.bind_eq_some_iff.mp h
  obtain ⟨hdead, h⟩ := Option.ite_none_left_eq_some.mp h
  cases h
  have hne : o ≠ ios := by
    rintro rfl
    simp [hs] at hdead
  exact ⟨s, hs, hne, set_self .., by rw [set_ne hne.symm, set_self]⟩

theorem moveAssign_eq {w w' : Services D} (h : w.moveAssign o ios = some w') :
    ∃ (t s : ServiceObject D), w.objects ios = some s ∧ o ≠ ios ∧ w'.objects o = some { t with
        m_processor := s.m_processor, m_handler := s.m_handler, m_fds_context := s.m_fds_context,
        m_request_submit_queue := none, m_uring := s.m_uring } ∧
      w'.objects ios = some { s with
        m_processor := none, m_handler := none, m_fds_context := ∅, m_uring := none } := by
  obtain ⟨t, ht, h⟩ := Option.bind_eq_some_iff.mp h
  obtain ⟨s, hs, h⟩ := Option.bind_eq_some_iff.mp h
  obtain ⟨hne, h⟩ := Option.ite_none_left_eq_some.mp h
  cases h
  exact ⟨t, s, hs, hne, set_self .., by rw [set_ne (Ne.symm hne), set_self]⟩

/-- What the target accepts stays in its queue: its steps look at the source's. -/
theorem not_works_of_moveConstruct {w w' : Services D} (h : Initialised w src)
    (hm : w.moveConstruct dst src = some w') : ¬Works w' dst := by
  intro hworks
  obtain ⟨s, hs, hne, hdst, hsrc⟩ := moveConstruct_eq hm
  obtain ⟨s', hs', hprocessor, -⟩ := h
  cases hs.symm.trans hs'
  let context : IoContext D := ⟨none, some ⟨.READ, 0⟩⟩
  obtain ⟨w₁, haccepted⟩ := hworks.accepts 0 context
  obtain ⟨k, w₂, seen, s₂, hstep, hs₂, hempty⟩ := hworks.drains 0 context w₁ nofun haccepted
  simp only [submitRequest, hdst, Option.bind_eq_bind, Option.bind_some] at haccepted
  split at haccepted
  · rename_i r fns huring hqueue
    cases haccepted
    have hself := set_self w' dst { s with m_request_submit_queue := some (fns ++ [⟨dst, 0, context⟩]) }
    obtain ⟨-, rfl, -⟩ := processEvents_captured hself hprocessor ((set_ne hne.symm ..).trans hsrc) rfl rfl hstep
    cases hself.symm.trans hs₂
    simp at hempty
  · cases haccepted

theorem not_works_of_moveAssign {w w' : Services D} (hm : w.moveAssign dst src = some w') : ¬Works w' dst := by
  intro hworks
  obtain ⟨t, s, -, -, hdst, -⟩ := moveAssign_eq hm
  obtain ⟨w₁, haccepted⟩ := hworks.accepts 0 ⟨none, none⟩
  simp [submitRequest, hdst] at haccepted

end Services

open Services in
/-- However an initialised service is moved, the target does not work; only the
source is as it should be. -/
theorem ioService_move_breaks (w : Services D) (src dst : Nat) (h : Initialised w src) :
    (∀ w', w.moveConstruct dst src = some w' → ¬Works w' dst ∧ Quiet w' src) ∧
      ∀ w', w.moveAssign dst src = some w' → ¬Works w' dst ∧ Quiet w' src := by
  constructor
  · intro w' hm
    obtain ⟨s, -, -, -, hsrc⟩ := moveConstruct_eq hm
    exact ⟨not_works_of_moveConstruct h hm, quiet_of_empty hsrc rfl rfl⟩
  · intro w' hm
    obtain ⟨t, s, -, -, -, hsrc⟩ := moveAssign_eq hm
    exact ⟨not_works_of_moveAssign hm, quiet_of_empty hsrc rfl rfl⟩

def twoServices : Option (Services Nat) := do
  let w ← Services.construct ⟨fun _ => none, fun _ => none, fun _ => none⟩ 0 128 0 128
  let w ← w.construct 1 128 1 128
  let w ← w.init 0
  let (w, _) ← w.submitRequest 0 5 ⟨some 0, some ⟨.READ, 5⟩⟩
  pure w

theorem twoServices_moves : ∃ w w₁ w₂, twoServices = some w ∧ w.Initialised 0 ∧
    w.moveConstruct 2 0 = some w₁ ∧ w.moveAssign 1 0 = some w₂ :=
  ⟨_, _, _, rfl, ⟨_, rfl, rfl, rfl⟩, rfl, rfl⟩

theorem ioService_move_breaks_two : ∃ w w₁ w₂, twoServices = some w ∧
    w.moveConstruct 2 0 = some w₁ ∧ (¬w₁.Works 2 ∧ w₁.Quiet 0) ∧
    w.moveAssign 1 0 = some w₂ ∧ ¬w₂.Works 1 ∧ w₂.Quiet 0 := by
  obtain ⟨w, w₁, w₂, hw, hinit, h₁, h₂⟩ := twoServices_moves
  exact ⟨w, w₁, w₂, hw, h₁, (ioService_move_breaks w 0 2 hinit).1 w₁ h₁, h₂, (ioService_move_breaks w 0 1 hinit).2 w₂ h₂⟩

theorem ioService_move_not_works : ¬∀ (w : Services Nat) (src dst : Nat), w.Initialised src →
    (∀ w', w.moveConstruct dst src = some w' → w'.Works dst ∧ w'.Quiet src) ∧
      ∀ w', w.moveAssign dst src = some w' → w'.Works dst ∧ w'.Quiet src := by
  intro h
  obtain ⟨w, w₁, w₂, -, hinit, h₁, -⟩ := twoServices_moves
  exact Services.not_works_of_moveConstruct hinit h₁ ((h w 0 2 hinit).1 w₁ h₁).1

end Andren.Network
