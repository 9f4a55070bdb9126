import Andren.Base.MutexQue
import Mathlib.Algebra.Ring.Nat
import Mathlib.Data.List.Nodup
import Mathlib.Data.List.Perm.Basic

/-!
# The io_uring service

`submitRequest` queues a request; a processing tick drains the queue, stores
each request in `m_fds_context` and prepares an SQE for it, submits the ring,
collects the CQEs and calls the callbacks. What travels through the kernel is
the address of the request's context in the map; the handler reads the context
there and finds the map entry by the uid it reads.

Nodes of the map live on a heap of their own here, so that an address can
dangle. `IoOk` says that none does: each SQE or CQE on its way belongs to an
entry of its own.
-/

namespace Andren.Network

open Machines Base

open scoped List

inductive Req
  | OPEN | CONNECT | ACCEPT | READ | WRITE | RECV | SEND | DISCONNECT | CLOSE | HOSTING | OTHER
  deriving DecidableEq

def Req.prepares : Req → Bool
  | .OTHER | .HOSTING | .DISCONNECT => false
  | _ => true

/-- `general` of an `io_request`, which the service itself looks at. -/
structure IoRequest where
  req : Req
  uid : Nat
  deriving DecidableEq

structure IoContext (D : Type) where
  onEvents : Option D
  req_context : Option IoRequest
  deriving DecidableEq

abbrev Addr := Nat

/-- `0` and `~0UL` are not the address of anything. -/
def Addr.valid (a : Addr) : Prop := a ≠ 0 ∧ a ≠ 2 ^ 64 - 1

instance (a : Addr) : Decidable a.valid := inferInstanceAs (Decidable (_ ∧ _))

/-- An SQE: the request it is prepared from, and the `user_data` of the CQE
that the kernel will make for it. -/
structure Sqe (D : Type) where
  uid : Nat
  context : IoContext D
  user_data : Addr
  deriving DecidableEq

structure Cqe (D : Type) where
  sqe : Sqe D
  res : Int
  deriving DecidableEq

inductive TickPc (D : Type)
  | idle
  | taking (pc : TakePc)
  /-- `working_request` has these closures left to call. -/
  | running (results : List (Nat × IoContext D))
  | waiting
  | reaping
  | handling (events : List (Cqe D))
  /-- Inside `onEvents` for the context at `a`; the handler has looked up `uid`
  and found `iter`. -/
  | calling (a : Addr) (uid : Nat) (iter : Option Addr) (events : List (Cqe D))

structure IOService (D : Type) where
  m_fds_context : Nat → Option Addr
  nodes : Addr → Option (IoContext D)
  m_request_submit_queue : MutexQue (Nat × IoContext D)
  m_size : Nat
  m_used : BitVec 32
  /-- The SQEs got from the ring since the last submit. -/
  sq : List (Sqe D)
  inflight : List (Sqe D)
  cq : List (Cqe D)
  tick : TickPc D

inductive IoAct (D : Type)
  | submitRequest (uid : Nat) (context : IoContext D)
  | begin
  | take
  /-- The next closure runs; a new node of the map is put at `a`. -/
  | runFn (a : Addr)
  /-- `io_uring_submit` submits `ret` SQEs or fails. -/
  | submit (ret : Option Nat)
  /-- `io_uring_wait_cqes` returns; a timeout is no failure. -/
  | wait (ok : Bool)
  | reap
  | handle
  /-- `onEvents` returns, having left `context` behind. -/
  | finish (bret : Bool) (context : IoContext D)
  /-- The kernel completes SQE number `k`. -/
  | complete (k : Nat) (res : Int)

inductive IoEv (D : Type)
  | accepted (uid : Nat) (context : IoContext D)
  /-- The closure of the request ran; what `submitRequest_Private` returned. -/
  | stored (uid : Nat) (context : IoContext D) (ret : Bool)
  | posted (uid : Nat) (context : IoContext D) (res : Int)
  /-- The handler read this context and calls its `onEvents` if it has one. -/
  | handled (uid : Nat) (context : IoContext D) (res : Int)
  | finished (uid : Nat) (bret : Bool)

namespace IOService

variable {D : Type}

/-- The constructor, with a ring of `m_size` entries or another ring. -/
def new (m_size : Nat) (D : Type) : IOService D where
  m_fds_context := fun _ => none
  nodes := fun _ => none
  m_request_submit_queue := .empty
  m_size := m_size
  m_used := 0
  sq := []
  inflight := []
  cq := []
  tick := .idle

/-- The two gauges, each with the body it has in the source. -/
def sqe_used (s : IOService D) : Nat := s.m_size

def entries_size (s : IOService D) : Nat := s.m_used.toNat

/-- `m_fds_context[uid]`, which puts a missing entry at `a`. -/
def nodeOf (s : IOService D) (uid : Nat) (a : Addr) : Option Addr :=
  match s.m_fds_context uid with
  | some a' => some a'
  | none => if s.nodes a = none ∧ a.valid then some a else none

def store (s : IOService D) (uid : Nat) (a : Addr) (context : IoContext D) : IOService D :=
  { s with
    m_fds_context := Function.update s.m_fds_context uid (some a)
    nodes := Function.update s.nodes a (some context) }

/-- `m_fds_context.erase(iter)`; erasing the end is undefined. -/
def erase (s : IOService D) (uid : Nat) : Option Addr → Option (IOService D)
  | none => none
  | some a => some { s with
      m_fds_context := Function.update s.m_fds_context uid none
      nodes := Function.update s.nodes a none }

/-- `submitRequest_Private` on a ring of `entries`; the ring has no empty SQE
when it has given all of them out since the last submit. -/
def submitRequest_Private (entries : Nat) (s : IOService D) (uid : Nat) (a : Addr)
    (context : IoContext D) : Option (IOService D × Bool) := do
  let a ← s.nodeOf uid a
  let s := s.store uid a context
  let request ← context.req_context
  if ¬request.req.prepares then pure (s, false)
  else if s.sq.length < entries then
    pure ({ s with sq := s.sq ++ [⟨uid, context, a⟩], m_used := s.m_used + 1 }, true)
  else pure (s, false)

def handle (s : IOService D) (e : Cqe D) (events : List (Cqe D)) :
    Option (IOService D × List (IoEv D)) :=
  let a := e.sqe.user_data
  if a = 0 then some ({ s with tick := .handling events }, [])
  else do
    let context ← s.nodes a
    let request ← context.req_context
    let iter := s.m_fds_context request.uid
    match context.onEvents with
    | some _ => pure ({ s with tick := .calling a request.uid iter events },
        [.handled request.uid context e.res])
    | none =>
      let s ← s.erase request.uid iter
      pure ({ s with tick := .handling events },
        [.handled request.uid context e.res, .finished request.uid true])

def finish (s : IOService D) (a : Addr) (uid : Nat) (iter : Option Addr) (events : List (Cqe D))
    (bret : Bool) (context : IoContext D) : Option (IOService D × List (IoEv D)) := do
  let s := { s with nodes := Function.update s.nodes a (some context), tick := .handling events }
  if bret then
    let s ← s.erase uid iter
    pure (s, [.finished uid true])
  else pure (s, [.finished uid false])

end IOService

open IOService in
/-- An initialised service on a ring of `entries`, the thread that processes
its events, the threads that submit requests, and the kernel. -/
def ioService (entries m_size : Nat) (D : Type) : Machine (IOService D) (IoAct D) (IoEv D) where
  init := new m_size D
  step s
    | .submitRequest uid context => some ({ s with
        m_request_submit_queue := s.m_request_submit_queue.pushBack (uid, context) },
        [.accepted uid context])
    | .begin => match s.tick with
      | .idle => some ({ s with tick := .taking .test }, [])
      | _ => none
    | .take => match s.tick with
      | .taking pc => do
        match ← s.m_request_submit_queue.takeStep .multi pc with
        | (q, .inl pc') => pure ({ s with m_request_submit_queue := q, tick := .taking pc' }, [])
        | (q, .inr res) => pure ({ s with m_request_submit_queue := q, tick := .running res }, [])
      | _ => none
    | .runFn a => match s.tick with
      | .running ((uid, context) :: results) => do
        -- the closure drops `ret`
        let (s, ret) ← s.submitRequest_Private entries uid a context
        pure ({ s with tick := .running results }, [.stored uid context ret])
      | _ => none
    | .submit ret => match s.tick with
      | .running [] =>
        if s.sqe_used ≤ 0 then some ({ s with tick := .idle }, [])
        else match ret with
          | none => some ({ s with tick := .idle }, [])
          | some k => some ({ s with
              sq := s.sq.drop k
              inflight := s.inflight ++ s.sq.take k
              tick := .waiting }, [])
      | _ => none
    | .wait ok => match s.tick with
      | .waiting => some ({ s with tick := if ok then .reaping else .idle }, [])
      | _ => none
    | .reap => match s.tick with
      | .reaping => some ({ s with
          cq := []
          m_used := s.m_used - BitVec.ofNat 32 s.cq.length
          tick := .handling (s.cq.filter fun e => e.sqe.user_data.valid) }, [])
      | _ => none
    | .handle => match s.tick with
      | .handling [] => some ({ s with tick := .idle }, [])
      | .handling (e :: events) => s.handle e events
      | _ => none
    | .finish bret context => match s.tick with
      | .calling a uid iter events => s.finish a uid iter events bret context
      | _ => none
    | .complete k res => do
      let sqe ← s.inflight[k]?
      pure ({ s with inflight := s.inflight.eraseIdx k, cq := s.cq ++ [⟨sqe, res⟩] },
        [.posted sqe.uid sqe.context res])

-- ---------------------------------------------------------------------------
-- Addresses on their way
-- ---------------------------------------------------------------------------

section

variable {D : Type} {entries m_size : Nat}

def IoContext.uid (context : IoContext D) : Option Nat := context.req_context.map IoRequest.uid

def IoContext.prepares (context : IoContext D) : Bool :=
  context.req_context.any fun request => request.req.prepares

def TickPc.results : TickPc D → List (Nat × IoContext D)
  | .running results => results
  | _ => []

def TickPc.events : TickPc D → List (Cqe D)
  | .handling events | .calling _ _ _ events => events
  | _ => []

def TickPc.current : TickPc D → List Nat
  | .calling _ uid _ _ => [uid]
  | _ => []

def IOService.queued (s : IOService D) : List (Nat × IoContext D) :=
  s.tick.results ++ s.m_request_submit_queue.contents

def IOService.completions (s : IOService D) : List (Cqe D) := s.tick.events ++ s.cq

/-- The SQEs prepared whose CQE the handler has yet to see. -/
def IOService.outstanding (s : IOService D) : List (Sqe D) :=
  s.sq ++ s.inflight ++ s.completions.map Cqe.sqe

/-- The address that an SQE carries is that of its own request's entry. -/
structure Live (m_fds_context : Nat → Option Addr) (nodes : Addr → Option (IoContext D))
    (sqe : Sqe D) : Prop where
  entry : m_fds_context sqe.uid = some sqe.user_data
  context : nodes sqe.user_data = some sqe.context
  own : sqe.context.uid = some sqe.uid
  valid : sqe.user_data.valid

/-- The entries of the map have nodes of their own, and each SQE of `out` has an
entry of its own and carries its address. -/
structure Custody (m_fds_context : Nat → Option Addr) (nodes : Addr → Option (IoContext D))
    (out : List (Sqe D)) : Prop where
  inj : ∀ uid uid' a, m_fds_context uid = some a → m_fds_context uid' = some a → uid = uid'
  node : ∀ uid a, m_fds_context uid = some a → nodes a ≠ none
  live : ∀ sqe ∈ out, Live m_fds_context nodes sqe
  nodup : (out.map Sqe.uid).Nodup

variable {m : Nat → Option Addr} {nodes : Addr → Option (IoContext D)} {out out' : List (Sqe D)}

theorem Custody.perm (h : Custody m nodes out) (hperm : out'.Perm out) : Custody m nodes out' :=
  ⟨h.inj, h.node, fun sqe hsqe => h.live sqe (hperm.mem_iff.mp hsqe),
    (hperm.map Sqe.uid).nodup_iff.mpr h.nodup⟩

theorem Custody.tail (h : Custody m nodes (sqe :: out)) : Custody m nodes out :=
  ⟨h.inj, h.node, fun sqe hsqe => h.live sqe (.tail _ hsqe), (List.nodup_cons.mp h.nodup).2⟩

theorem Custody.store (h : Custody m nodes out) (huid : m uid = none) (ha : nodes a = none)
    (context : IoContext D) :
    Custody (Function.update m uid (some a)) (Function.update nodes a (some context)) out := by
  have hother {uid' a'} (h' : m uid' = some a') : uid' ≠ uid ∧ a' ≠ a := by
    refine ⟨?_, ?_⟩
    · rintro rfl
      cases huid.symm.trans h'
    · rintro rfl
      exact h.node _ _ h' ha
  refine ⟨?_, ?_, ?_, h.nodup⟩
  · intro uid₁ uid₂ a' h₁ h₂
    rw [Function.update_apply] at h₁ h₂
    split at h₁ <;> split at h₂
    · simp_all
    · cases h₁
      exact absurd rfl (hother h₂).2
    · cases h₂
      exact absurd rfl (hother h₁).2
    · exact h.inj uid₁ uid₂ a' h₁ h₂
  · intro uid' a' h'
    rw [Function.update_apply] at h' ⊢
    split at h'
    · cases h'
      simp
    · rw [if_neg (hother h').2]
      exact h.node uid' a' h'
  · intro sqe hsqe
    obtain ⟨hentry, hcontext, hown, hvalid⟩ := h.live sqe hsqe
    obtain ⟨hne, hne'⟩ := hother hentry
    exact ⟨by rwa [Function.update_of_ne hne], by rwa [Function.update_of_ne hne'], hown, hvalid⟩

theorem Custody.prepare (h : Custody m nodes out) (huid : m uid = none) (ha : nodes a = none)
    (hown : context.uid = some uid) (hvalid : a.valid) :
    Custody (Function.update m uid (some a)) (Function.update nodes a (some context))
      (⟨uid, context, a⟩ :: out) := by
  obtain ⟨hinj, hnode, hlive, hnodup⟩ := h.store huid ha context
  refine ⟨hinj, hnode, ?_, ?_⟩
  · rintro sqe (_ | ⟨_, hsqe⟩)
    · exact ⟨Function.update_self .., Function.update_self .., hown, hvalid⟩
    · exact hlive sqe hsqe
  · rw [List.map_cons, List.nodup_cons]
    refine ⟨?_, hnodup⟩
    rintro hmem
    obtain ⟨sqe, hsqe, rfl⟩ := List.mem_map.mp hmem
    cases huid.symm.trans (h.live sqe hsqe).entry

theorem Custody.other (h : Custody m nodes out) (ha : m uid = some a) (huid : uid ∉ out.map Sqe.uid)
    (hsqe : sqe ∈ out) : sqe.uid ≠ uid ∧ sqe.user_data ≠ a := by
  have hne : sqe.uid ≠ uid := by
    rintro rfl
    exact huid (List.mem_map_of_mem hsqe)
  refine ⟨hne, ?_⟩
  rintro rfl
  exact hne (h.inj _ _ _ (h.live sqe hsqe).entry ha)

theorem Custody.leave (h : Custody m nodes out) (ha : m uid = some a) (huid : uid ∉ out.map Sqe.uid)
    (context : IoContext D) : Custody m (Function.update nodes a (some context)) out := by
  refine ⟨h.inj, ?_, ?_, h.nodup⟩
  · intro uid' a' h'
    rw [Function.update_apply]
    split
    · simp
    · exact h.node uid' a' h'
  · intro sqe hsqe
    obtain ⟨hentry, hcontext, hown, hvalid⟩ := h.live sqe hsqe
    exact ⟨hentry, by rwa [Function.update_of_ne (h.other ha huid hsqe).2], hown, hvalid⟩

theorem Custody.erase (h : Custody m nodes out) (ha : m uid = some a) (huid : uid ∉ out.map Sqe.uid) :
    Custody (Function.update m uid none) (Function.update nodes a none) out := by
  have hother {uid' a'} (h' : Function.update m uid none uid' = some a') :
      m uid' = some a' ∧ a' ≠ a := by
    rw [Function.update_apply] at h'
    split at h'
    · cases h'
    · rename_i hne
      refine ⟨h', ?_⟩
      rintro rfl
      exact hne (h.inj _ _ _ h' ha)
  refine ⟨?_, ?_, ?_, h.nodup⟩
  · intro uid₁ uid₂ a' h₁ h₂
    exact h.inj uid₁ uid₂ a' (hother h₁).1 (hother h₂).1
  · intro uid' a' h'
    rw [Function.update_of_ne (hother h').2]
    exact h.node uid' a' (hother h').1
  · intro sqe hsqe
    obtain ⟨hentry, hcontext, hown, hvalid⟩ := h.live sqe hsqe
    obtain ⟨hne, hne'⟩ := h.other ha huid hsqe
    exact ⟨by rwa [Function.update_of_ne hne], by rwa [Function.update_of_ne hne'], hown, hvalid⟩

-- ---------------------------------------------------------------------------
-- What a run shows
-- ---------------------------------------------------------------------------

def acceptedRequests (tr : List (IoEv D)) : List (Nat × IoContext D) :=
  tr.filterMap fun
    | .accepted uid context => some (uid, context)
    | _ => none

def stored (tr : List (IoEv D)) : List (Nat × IoContext D) :=
  tr.filterMap fun
    | .stored uid context _ => some (uid, context)
    | _ => none

/-- The requests whose `false` from `submitRequest_Private` nobody sees. -/
def refused (tr : List (IoEv D)) : List (Nat × IoContext D) :=
  tr.filterMap fun
    | .stored uid context false => some (uid, context)
    | _ => none

def posted (tr : List (IoEv D)) : List (Nat × IoContext D × Int) :=
  tr.filterMap fun
    | .posted uid context res => some (uid, context, res)
    | _ => none

def handled (tr : List (IoEv D)) : List (Nat × IoContext D × Int) :=
  tr.filterMap fun
    | .handled uid context res => some (uid, context, res)
    | _ => none

def finished (tr : List (IoEv D)) : List Nat :=
  tr.filterMap fun
    | .finished uid _ => some uid
    | _ => none

@[simp] theorem acceptedRequests_append (tr tr' : List (IoEv D)) :
    acceptedRequests (tr ++ tr') = acceptedRequests tr ++ acceptedRequests tr' := List.filterMap_append

@[simp] theorem stored_append (tr tr' : List (IoEv D)) :
    stored (tr ++ tr') = stored tr ++ stored tr' := List.filterMap_append

@[simp] theorem refused_append (tr tr' : List (IoEv D)) :
    refused (tr ++ tr') = refused tr ++ refused tr' := List.filterMap_append

@[simp] theorem handled_append (tr tr' : List (IoEv D)) :
    handled (tr ++ tr') = handled tr ++ handled tr' := List.filterMap_append

@[simp] theorem finished_append (tr tr' : List (IoEv D)) :
    finished (tr ++ tr') = finished tr ++ finished tr' := List.filterMap_append

def request (v : Nat × IoContext D × Int) : Nat × IoContext D := (v.1, v.2.1)

-- ---------------------------------------------------------------------------
-- One step
-- ---------------------------------------------------------------------------

def CallingOk (s : IOService D) : Prop :=
  ∀ a uid iter events, s.tick = .calling a uid iter events →
    iter = some a ∧ s.m_fds_context uid = some a ∧ uid ∉ s.outstanding.map Sqe.uid

structure IoOk (s : IOService D) : Prop where
  take : ∀ pc, s.tick = .taking pc → TakeOk s.m_request_submit_queue pc
  own : ∀ r ∈ s.queued, r.2.uid = some r.1
  custody : Custody s.m_fds_context s.nodes s.outstanding
  calling : CallingOk s

/-- Requests are submitted under their own uid, and stored under a uid that no
entry of the map has. -/
def Matched (s : IOService D) : IoAct D → Prop
  | .submitRequest uid context => context.uid = some uid
  | .runFn _ => ∀ r ∈ s.tick.results.head?, s.m_fds_context r.1 = none
  | _ => True

/-- Requests that get an SQE are submitted, each under its own uid. -/
def Submits (_ : IOService D) : IoAct D → Prop
  | .submitRequest uid context => context.uid = some uid ∧ context.prepares
  | _ => True

/-- A closure runs only while the ring has an empty SQE. -/
def Roomy (entries : Nat) (s : IOService D) : IoAct D → Prop
  | .runFn _ => s.sq.length < entries
  | _ => True

def Cqe.view (e : Cqe D) : Nat × IoContext D × Int := (e.sqe.uid, e.sqe.context, e.res)

def IOService.pending (s : IOService D) : List (Nat × IoContext D × Int) :=
  s.completions.map Cqe.view

def IOService.entry (s : IOService D) (uid : Nat) : Option (Addr × Option (IoContext D)) :=
  (s.m_fds_context uid).map fun a => (a, s.nodes a)

def IoEv.obs : IoEv D → List (ChanEv Unit (Nat × IoContext D × Int))
  | .posted uid context res => [.put () (uid, context, res)]
  | .handled uid context res => [.got () (uid, context, res)]
  | _ => []

/-- A step touches the entries of the requests it stores or finishes, and the
entry of a finished request is gone just when its call returned true. -/
structure Touches (s : IOService D) (es : List (IoEv D)) (s' : IOService D) : Prop where
  other : ∀ uid, s'.entry uid = s.entry uid ∨ uid ∈ (stored es).map Prod.fst ∨ uid ∈ finished es
  erased : ∀ uid, .finished uid true ∈ es → s'.entry uid = none
  kept : ∀ uid, .finished uid false ∈ es →
    s'.m_fds_context uid = s.m_fds_context uid ∧ s'.entry uid ≠ none

def Sqe.request (sqe : Sqe D) : Nat × IoContext D := (sqe.uid, sqe.context)

structure Moves (entries : Nat) (s : IOService D) (a : IoAct D) (es : List (IoEv D)) (s' : IOService D) :
    Prop where
  queue : s.queued ++ acceptedRequests es = stored es ++ s'.queued
  ring : s'.outstanding.map Sqe.request ++ (handled es).map request ++ refused es ~
    s.outstanding.map Sqe.request ++ stored es
  current : s.tick.current ++ (handled es).map Prod.fst = finished es ++ s'.tick.current
  submits : Submits s a → ∀ r ∈ acceptedRequests es, r.2.prepares
  roomy : Roomy entries s a → ∀ r ∈ refused es, r.2.prepares = false

structure Serves (entries : Nat) (s : IOService D) (a : IoAct D) (es : List (IoEv D)) (s' : IOService D) :
    Prop where
  ok : IoOk s'
  fifo : (channels Unit (Nat × IoContext D × Int)).Steps Machine.anyStep (fun _ => s.pending)
    (es.flatMap IoEv.obs) fun _ => s'.pending
  moves : Moves entries s a es s'
  touches : Touches s es s'

theorem Touches.same {s s' : IOService D} {es : List (IoEv D)} (hm : s'.m_fds_context = s.m_fds_context)
    (hnodes : s'.nodes = s.nodes) (hes : ∀ uid bret, .finished uid bret ∉ es) : Touches s es s' := by
  refine ⟨fun uid => .inl ?_, fun uid h => absurd h (hes _ _), fun uid h => absurd h (hes _ _)⟩
  rw [IOService.entry, IOService.entry, hm, hnodes]

theorem Moves.same {s s' : IOService D} {es : List (IoEv D)} (hqueued : s'.queued = s.queued)
    (hout : s'.outstanding ~ s.outstanding) (hcurrent : s.tick.current = finished es ++ s'.tick.current)
    (haccepted : acceptedRequests es = []) (hstored : stored es = []) (hrefused : refused es = [])
    (hhandled : handled es = []) : Moves entries s a es s' := by
  refine ⟨?_, ?_, ?_, by simp [haccepted], by simp [hrefused]⟩
  · simp [haccepted, hstored, hqueued]
  · simpa [hstored, hrefused, hhandled] using hout.map Sqe.request
  · simpa [hhandled] using hcurrent

theorem Moves.store (a : Addr) (ret : Bool) {s s' : IOService D} (hqueued : s.queued = (uid, context) :: s'.queued)
    (hcurrent : s.tick.current = s'.tick.current)
    (hout : if ret then s'.outstanding ~ ⟨uid, context, a⟩ :: s.outstanding
      else s'.outstanding = s.outstanding)
    (hret : s.sq.length < entries → ret = false → context.prepares = false) :
    Moves entries s (.runFn a') [.stored uid context ret] s' := by
  refine ⟨by simp [acceptedRequests, stored, hqueued], ?_, by simpa [handled, finished] using hcurrent,
    by simp [acceptedRequests], ?_⟩
  · cases ret with
    | true =>
      calc s'.outstanding.map Sqe.request ++ [] ++ []
        _ = s'.outstanding.map Sqe.request := by simp
        _ ~ (uid, context) :: s.outstanding.map Sqe.request := List.Perm.map Sqe.request hout
        _ ~ s.outstanding.map Sqe.request ++ [(uid, context)] := (List.perm_append_singleton _ _).symm
    | false =>
      have hsame : s'.outstanding = s.outstanding := hout
      simp [handled, refused, stored, hsame]
  · intro hroom r hr
    cases ret with
    | true => cases hr
    | false =>
      obtain rfl := List.mem_singleton.mp hr
      exact hret hroom rfl

theorem Moves.handle {s s' : IOService D} {es : List (IoEv D)} (hqueued : s'.queued = s.queued)
    (hout : sqe :: s'.outstanding ~ s.outstanding)
    (hcurrent : s.tick.current ++ [sqe.uid] = finished es ++ s'.tick.current)
    (haccepted : acceptedRequests es = []) (hstored : stored es = []) (hrefused : refused es = [])
    (hhandled : handled es = [(sqe.uid, sqe.context, res)]) : Moves entries s a es s' := by
  refine ⟨?_, ?_, ?_, by simp [haccepted], by simp [hrefused]⟩
  · simp [haccepted, hstored, hqueued]
  · rw [hstored, hrefused, hhandled]
    calc s'.outstanding.map Sqe.request ++ [sqe.request] ++ []
      _ = s'.outstanding.map Sqe.request ++ [sqe.request] := List.append_nil _
      _ ~ sqe.request :: s'.outstanding.map Sqe.request := List.perm_append_singleton _ _
      _ ~ s.outstanding.map Sqe.request := hout.map Sqe.request
      _ = s.outstanding.map Sqe.request ++ [] := (List.append_nil _).symm
  · rw [hhandled]
    exact hcurrent

/-- A step that leaves the map, the SQEs, the CQEs and the requests alone. -/
theorem IoOk.quiet {s s' : IOService D} (h : IoOk s) (hm : s'.m_fds_context = s.m_fds_context)
    (hnodes : s'.nodes = s.nodes) (hsq : s'.sq ++ s'.inflight ~ s.sq ++ s.inflight)
    (hcompletions : s'.completions = s.completions) (hqueued : s'.queued = s.queued)
    (hcurrent : s.tick.current = s'.tick.current)
    (htick : ∀ a uid iter events, s'.tick ≠ .calling a uid iter events)
    (htake : ∀ pc, s'.tick = .taking pc → TakeOk s'.m_request_submit_queue pc) :
    Serves entries s a [] s' := by
  have hout : s'.outstanding ~ s.outstanding := by
    rw [IOService.outstanding, IOService.outstanding, hcompletions]
    exact hsq.append_right _
  have hpending : s'.pending = s.pending := by rw [IOService.pending, IOService.pending, hcompletions]
  refine ⟨⟨htake, hqueued ▸ h.own, ?_, ?_⟩, hpending ▸ .refl,
    .same hqueued hout hcurrent rfl rfl rfl rfl, .same hm hnodes nofun⟩
  · rw [hm, hnodes]
    exact h.custody.perm hout
  · intro a uid iter events heq
    exact absurd heq (htick a uid iter events)

theorem serves_submitRequest {s : IOService D} (h : IoOk s) (hown : context.uid = some uid) :
    Serves entries s (.submitRequest uid context) [.accepted uid context] { s with
      m_request_submit_queue := s.m_request_submit_queue.pushBack (uid, context) } := by
  refine ⟨⟨fun pc hpc => (h.take pc hpc).pushBack _, ?_, h.custody, h.calling⟩, .refl, ?_,
    .same rfl rfl (by simp)⟩
  · intro r hr
    simp only [IOService.queued, MutexQue.contents_pushBack, ← List.append_assoc, List.mem_append,
      List.mem_singleton] at hr
    rcases hr with hr | rfl
    · exact h.own r (List.mem_append.mpr hr)
    · exact hown
  · refine ⟨?_, ?_, ?_, ?_, by simp [refused]⟩
    · simp [acceptedRequests, stored, IOService.queued]
    · simp [handled, refused, stored, IOService.outstanding, IOService.completions]
    · simp [handled, finished]
    · rintro ⟨-, hprepares⟩ r hr
      obtain rfl := List.mem_singleton.mp hr
      exact hprepares

theorem serves_take {s s' : IOService D} (h : IoOk s)
    (hs : (ioService entries m_size D).step s .take = some (s', es)) :
    Serves entries s .take es s' := by
  simp only [ioService] at hs
  split at hs
  · rename_i pc htick
    simp only [Option.bind_eq_bind, Option.bind_eq_some_iff] at hs
    obtain ⟨⟨q, next⟩, hstep, hs⟩ := hs
    cases next with
    | inl pc' =>
      cases hs
      obtain ⟨hok, hcontents⟩ := takeStep_inl (h.take pc htick) hstep
      refine h.quiet rfl rfl .rfl ?_ ?_ ?_ (by rintro a uid iter events ⟨⟩) ?_
      · simp [IOService.completions, htick, TickPc.events]
      · simp [IOService.queued, htick, hcontents, TickPc.results]
      · rw [htick]
        rfl
      · rintro _ ⟨⟩
        exact hok
    | inr res =>
      cases hs
      have hcontents := takeStep_inr hstep
      refine h.quiet rfl rfl .rfl ?_ ?_ ?_ (by rintro a uid iter events ⟨⟩) (by rintro pc ⟨⟩)
      · simp [IOService.completions, htick, TickPc.events]
      · simp [IOService.queued, htick, hcontents, TickPc.results]
      · rw [htick]
        rfl
  · cases hs

/-- Storing a request under a uid that has no entry, with an SQE for it or
without one. -/
theorem submitRequest_Private_eq {s : IOService D} {r : IOService D × Bool}
    (huid : s.m_fds_context uid = none)
    (hs : s.submitRequest_Private entries uid a context = some r) :
    s.nodes a = none ∧ a.valid ∧
      ((∃ used, r = ({ s.store uid a context with
          sq := s.sq ++ [⟨uid, context, a⟩], m_used := used }, true)) ∧ s.sq.length < entries ∨
        r = (s.store uid a context, false) ∧ (s.sq.length < entries → context.prepares = false)) := by
  unfold IOService.submitRequest_Private IOService.nodeOf at hs
  simp only [huid, Option.bind_eq_bind, Option.bind_eq_some_iff, Option.ite_none_right_eq_some,
    Option.some.injEq, Option.pure_def] at hs
  obtain ⟨_, ⟨⟨ha, hvalid⟩, rfl⟩, request, hrequest, hs⟩ := hs
  refine ⟨ha, hvalid, ?_⟩
  split at hs
  · rename_i hprepares
    cases hs
    refine .inr ⟨rfl, fun _ => ?_⟩
    simpa [IoContext.prepares, hrequest] using hprepares
  · split at hs
    · rename_i hroom
      cases hs
      exact .inl ⟨⟨_, rfl⟩, hroom⟩
    · rename_i hfull
      cases hs
      exact .inr ⟨rfl, fun hroom => absurd hroom hfull⟩

theorem Touches.store {s s' : IOService D} (hcustody : Custody s.m_fds_context s.nodes s.outstanding)
    (ha : s.nodes a = none)
    (hm : s'.m_fds_context = Function.update s.m_fds_context uid (some a))
    (hnodes : s'.nodes = Function.update s.nodes a (some context)) :
    Touches s [.stored uid context ret] s' := by
  refine ⟨?_, by simp, by simp⟩
  intro uid'
  rcases eq_or_ne uid' uid with rfl | hne
  · exact .inr (.inl (by simp [stored]))
  · left
    rw [IOService.entry, IOService.entry, hm, hnodes, Function.update_of_ne hne]
    cases huid' : s.m_fds_context uid' with
    | none => rfl
    | some a' =>
      have hne' : a' ≠ a := by
        rintro rfl
        exact hcustody.node _ _ huid' ha
      simp [Function.update_of_ne hne']

theorem serves_runFn {s s' : IOService D} (h : IoOk s) (hok : Matched s (.runFn a))
    (hs : (ioService entries m_size D).step s (.runFn a) = some (s', es)) :
    Serves entries s (.runFn a) es s' := by
  simp only [ioService] at hs
  split at hs
  · rename_i uid context results htick
    simp only [Option.bind_eq_bind, Option.bind_eq_some_iff] at hs
    obtain ⟨r, hstore, hs⟩ := hs
    cases hs
    have huid : s.m_fds_context uid = none := hok (uid, context) (by rw [htick]; rfl)
    have hhead : s.queued = (uid, context) :: (results ++ s.m_request_submit_queue.contents) := by
      rw [IOService.queued, htick]
      rfl
    have hown : context.uid = some uid := h.own (uid, context) (hhead ▸ .head _)
    have hqueued : ∀ r ∈ results ++ s.m_request_submit_queue.contents, r.2.uid = some r.1 := by
      intro r hr
      exact h.own r (hhead ▸ .tail _ hr)
    have hout : s.outstanding = s.sq ++ s.inflight ++ s.cq.map Cqe.sqe := by
      simp [IOService.outstanding, IOService.completions, htick, TickPc.events]
    have hpending : s.pending = s.cq.map Cqe.view := by
      simp [IOService.pending, IOService.completions, htick, TickPc.events]
    have hcustody := hout ▸ h.custody
    have hcurrent : s.tick.current = (TickPc.running results).current := by
      rw [htick]
      rfl
    obtain ⟨ha, hvalid, ⟨⟨used, rfl⟩, -⟩ | ⟨rfl, hret⟩⟩ := submitRequest_Private_eq huid hstore
    · have hperm : s.sq ++ [⟨uid, context, a⟩] ++ s.inflight ++ s.cq.map Cqe.sqe ~
          (⟨uid, context, a⟩ : Sqe D) :: (s.sq ++ s.inflight ++ s.cq.map Cqe.sqe) := by
        simp only [List.append_assoc, List.singleton_append]
        exact List.perm_middle
      exact ⟨⟨by rintro pc ⟨⟩, hqueued, (hcustody.prepare huid ha hown hvalid).perm hperm,
        by rintro a uid iter events ⟨⟩⟩, hpending ▸ .refl,
        .store a true hhead hcurrent (hout ▸ hperm) (by rintro - ⟨⟩), .store h.custody ha rfl rfl⟩
    · exact ⟨⟨by rintro pc ⟨⟩, hqueued, hcustody.store huid ha context,
        by rintro a uid iter events ⟨⟩⟩, hpending ▸ .refl,
        .store a false hhead hcurrent hout.symm fun hroom _ => hret hroom,
        .store h.custody ha rfl rfl⟩
  · cases hs

theorem IoOk.turn {s : IOService D} {tick : TickPc D} (h : IoOk s) (hevents : tick.events = s.tick.events)
    (hresults : tick.results = s.tick.results) (hcurrent : s.tick.current = tick.current)
    (hcalling : ∀ a uid iter events, tick ≠ .calling a uid iter events) (htaking : ∀ pc, tick ≠ .taking pc) :
    Serves entries s a [] { s with tick := tick } := by
  refine h.quiet rfl rfl .rfl ?_ ?_ hcurrent hcalling fun pc hpc => absurd hpc (htaking pc)
  · rw [IOService.completions, IOService.completions, hevents]
  · rw [IOService.queued, IOService.queued, hresults]

theorem serves_submit {s s' : IOService D} (h : IoOk s)
    (hs : (ioService entries m_size D).step s (.submit ret) = some (s', es)) :
    Serves entries s (.submit ret) es s' := by
  simp only [ioService] at hs
  split at hs
  · rename_i htick
    have hidle : Serves entries s (.submit ret) [] { s with tick := .idle } := by
      refine h.turn ?_ ?_ ?_ nofun nofun <;> rw [htick] <;> rfl
    split at hs
    · cases hs
      exact hidle
    · split at hs <;> cases hs
      · exact hidle
      · rename_i k
        refine h.quiet rfl rfl ?_ ?_ ?_ ?_ nofun nofun
        · calc s.sq.drop k ++ (s.inflight ++ s.sq.take k)
            _ ~ s.inflight ++ s.sq.take k ++ s.sq.drop k := List.perm_append_comm
            _ = s.inflight ++ s.sq := by rw [List.append_assoc, List.take_append_drop]
            _ ~ s.sq ++ s.inflight := List.perm_append_comm
        · simp [IOService.completions, htick, TickPc.events]
        · simp [IOService.queued, htick, TickPc.results]
        · rw [htick]
          rfl
  · cases hs

theorem serves_reap {s s' : IOService D} (h : IoOk s)
    (hs : (ioService entries m_size D).step s .reap = some (s', es)) :
    Serves entries s .reap es s' := by
  simp only [ioService] at hs
  split at hs
  · rename_i htick
    cases hs
    have hfilter : s.cq.filter (fun e => e.sqe.user_data.valid) = s.cq := by
      rw [List.filter_eq_self]
      intro e he
      have hmem : e.sqe ∈ s.outstanding := by
        refine List.mem_append_right _ (List.mem_map_of_mem ?_)
        exact List.mem_append_right _ he
      exact decide_eq_true (h.custody.live _ hmem).valid
    refine h.quiet rfl rfl .rfl ?_ ?_ ?_ nofun nofun
    · simp [IOService.completions, htick, TickPc.events, hfilter]
    · simp [IOService.queued, htick, TickPc.results]
    · rw [htick]
      rfl
  · cases hs

theorem Touches.finish (bret : Bool) {s s' : IOService D} {es : List (IoEv D)}
    (hcustody : Custody s.m_fds_context s.nodes s.outstanding) (ha : s.m_fds_context uid = some a)
    (hes : ∀ uid' bret', .finished uid' bret' ∈ es ↔ uid' = uid ∧ bret' = bret)
    (hm : s'.m_fds_context = if bret then Function.update s.m_fds_context uid none else s.m_fds_context)
    (hnodes : ∀ a' ≠ a, s'.nodes a' = s.nodes a') : Touches s es s' := by
  refine ⟨?_, ?_, ?_⟩
  · intro uid'
    rcases eq_or_ne uid' uid with rfl | hne
    · exact .inr (.inr (List.mem_filterMap.mpr ⟨_, (hes _ _).mpr ⟨rfl, rfl⟩, rfl⟩))
    · left
      have huid' : s'.m_fds_context uid' = s.m_fds_context uid' := by
        rw [hm]
        split
        · exact Function.update_of_ne hne _ _
        · rfl
      rw [IOService.entry, IOService.entry, huid']
      cases h' : s.m_fds_context uid' with
      | none => rfl
      | some a' =>
        have hne' : a' ≠ a := by
          rintro rfl
          exact hne (hcustody.inj _ _ _ h' ha)
        simp [hnodes a' hne']
  · intro uid' hmem
    obtain ⟨rfl, rfl⟩ := (hes _ _).mp hmem
    simp [IOService.entry, hm]
  · intro uid' hmem
    obtain ⟨rfl, rfl⟩ := (hes _ _).mp hmem
    rw [if_neg Bool.false_ne_true] at hm
    exact ⟨by rw [hm], by simp [IOService.entry, hm, ha]⟩

theorem outstanding_head {s : IOService D} (htick : s.tick = .handling (e :: events)) :
    e.sqe :: (s.sq ++ s.inflight ++ (events ++ s.cq).map Cqe.sqe) ~ s.outstanding := by
  simp only [IOService.outstanding, IOService.completions, htick, TickPc.events, List.cons_append,
    List.map_cons]
  exact List.perm_middle.symm

theorem IoOk.head {s : IOService D} (h : IoOk s) (htick : s.tick = .handling (e :: events)) :
    Live s.m_fds_context s.nodes e.sqe ∧
      Custody s.m_fds_context s.nodes (s.sq ++ s.inflight ++ (events ++ s.cq).map Cqe.sqe) ∧
      e.sqe.uid ∉ (s.sq ++ s.inflight ++ (events ++ s.cq).map Cqe.sqe).map Sqe.uid := by
  have hcustody := h.custody.perm (outstanding_head htick)
  exact ⟨hcustody.live _ (.head _), hcustody.tail, (List.nodup_cons.mp hcustody.nodup).1⟩

theorem handle_eq {s : IOService D} (h : Live s.m_fds_context s.nodes e.sqe) :
    s.handle e events = match e.sqe.context.onEvents with
      | some _ => some ({ s with
          tick := .calling e.sqe.user_data e.sqe.uid (some e.sqe.user_data) events },
          [.handled e.sqe.uid e.sqe.context e.res])
      | none => some ({ s with
          m_fds_context := Function.update s.m_fds_context e.sqe.uid none
          nodes := Function.update s.nodes e.sqe.user_data none
          tick := .handling events },
          [.handled e.sqe.uid e.sqe.context e.res, .finished e.sqe.uid true]) := by
  obtain ⟨hentry, hcontext, hown, hvalid⟩ := h
  obtain ⟨request, hrequest, huid⟩ := Option.map_eq_some_iff.mp hown
  unfold IOService.handle
  rw [if_neg hvalid.1]
  simp only [hcontext, hrequest, huid, hentry, Option.bind_eq_bind, Option.bind_some, Option.pure_def,
    IOService.erase]

theorem serves_handle {s s' : IOService D} (h : IoOk s)
    (hs : (ioService entries m_size D).step s .handle = some (s', es)) :
    Serves entries s .handle es s' := by
  simp only [ioService] at hs
  split at hs
  · rename_i htick
    cases hs
    refine h.turn ?_ ?_ ?_ nofun nofun <;> rw [htick] <;> rfl
  · rename_i e events htick
    obtain ⟨hlive, hcustody, huid⟩ := h.head htick
    have hperm := outstanding_head htick
    rw [handle_eq hlive] at hs
    have hsame : s.m_request_submit_queue.contents = s.queued := by
      rw [IOService.queued, htick]
      rfl
    have hqueued : ∀ r ∈ s.m_request_submit_queue.contents, r.2.uid = some r.1 := by
      intro r hr
      exact h.own r (List.mem_append_right _ hr)
    have hpending : s.pending = [e.view] ++ (events ++ s.cq).map Cqe.view := by
      simp [IOService.pending, IOService.completions, htick, TickPc.events]
    have hcurrent : s.tick.current = [] := by
      rw [htick]
      rfl
    split at hs <;> cases hs
    · refine ⟨⟨nofun, hqueued, hcustody, ?_⟩, channel_gets hpending,
        .handle hsame hperm (by rw [hcurrent]; rfl) rfl rfl rfl rfl, .same rfl rfl (by simp)⟩
      rintro _ _ _ _ ⟨⟩
      exact ⟨rfl, hlive.entry, huid⟩
    · refine ⟨⟨nofun, hqueued, hcustody.erase hlive.entry huid, nofun⟩, channel_gets hpending,
        .handle hsame hperm (by rw [hcurrent]; rfl) rfl rfl rfl rfl, ?_⟩
      exact .finish true h.custody hlive.entry (by simp) rfl
        fun a' hne => Function.update_of_ne hne _ _
  · cases hs

theorem serves_finish {s s' : IOService D} (h : IoOk s)
    (hs : (ioService entries m_size D).step s (.finish bret context) = some (s', es)) :
    Serves entries s (.finish bret context) es s' := by
  simp only [ioService] at hs
  split at hs
  · rename_i a uid iter events htick
    obtain ⟨rfl, ha, huid⟩ := h.calling _ _ _ _ htick
    have hout : s.outstanding = s.sq ++ s.inflight ++ (events ++ s.cq).map Cqe.sqe := by
      simp [IOService.outstanding, IOService.completions, htick, TickPc.events]
    have hpending : s.pending = (events ++ s.cq).map Cqe.view := by
      simp [IOService.pending, IOService.completions, htick, TickPc.events]
    have hqueued : ∀ r ∈ s.m_request_submit_queue.contents, r.2.uid = some r.1 := by
      intro r hr
      exact h.own r (List.mem_append_right _ hr)
    have hsame : s.m_request_submit_queue.contents = s.queued := by
      rw [IOService.queued, htick]
      rfl
    have hcurrent : s.tick.current = [uid] := by
      rw [htick]
      rfl
    have hcustody := h.custody
    rw [hout] at huid hcustody
    unfold IOService.finish at hs
    simp only [IOService.erase, Option.bind_eq_bind, Option.bind_some, Option.pure_def] at hs
    split at hs <;> rename_i hbret <;> cases hs
    · refine ⟨⟨nofun, hqueued, (hcustody.leave ha huid context).erase ha huid, nofun⟩, hpending ▸ .refl,
        .same hsame (.of_eq hout.symm) hcurrent rfl rfl rfl rfl, ?_⟩
      refine .finish true h.custody ha (by simp) rfl fun a' hne => ?_
      simp only [Function.update_of_ne hne]
    · refine ⟨⟨nofun, hqueued, hcustody.leave ha huid context, nofun⟩, hpending ▸ .refl,
        .same hsame (.of_eq hout.symm) hcurrent rfl rfl rfl rfl, ?_⟩
      exact .finish false h.custody ha (by simp) rfl
        fun a' hne => Function.update_of_ne hne _ _
  · cases hs

theorem serves_complete {s s' : IOService D} (h : IoOk s)
    (hs : (ioService entries m_size D).step s (.complete k res) = some (s', es)) :
    Serves entries s (.complete k res) es s' := by
  simp only [ioService, Option.bind_eq_bind, Option.bind_eq_some_iff] at hs
  obtain ⟨sqe, hk, hs⟩ := hs
  cases hs
  obtain ⟨hlt, rfl⟩ := List.getElem?_eq_some_iff.mp hk
  have hperm : s.sq ++ s.inflight.eraseIdx k ++
      (s.tick.events ++ (s.cq ++ [(⟨s.inflight[k], res⟩ : Cqe D)])).map Cqe.sqe ~ s.outstanding := by
    calc s.sq ++ s.inflight.eraseIdx k ++
          (s.tick.events ++ (s.cq ++ [(⟨s.inflight[k], res⟩ : Cqe D)])).map Cqe.sqe
      _ = s.sq ++ s.inflight.eraseIdx k ++ s.completions.map Cqe.sqe ++ [s.inflight[k]] := by
        simp [IOService.completions]
      _ ~ s.inflight[k] :: (s.sq ++ s.inflight.eraseIdx k ++ s.completions.map Cqe.sqe) :=
        List.perm_append_singleton _ _
      _ ~ s.sq ++ (s.inflight[k] :: s.inflight.eraseIdx k) ++ s.completions.map Cqe.sqe := by
        rw [List.append_assoc, List.append_assoc]
        exact List.perm_middle.symm
      _ ~ s.outstanding :=
        ((List.getElem_cons_eraseIdx_perm hlt).append_left s.sq).append_right _
  refine ⟨⟨h.take, h.own, h.custody.perm hperm, ?_⟩, ?_, .same rfl hperm rfl rfl rfl rfl rfl,
    .same rfl rfl (by simp)⟩
  · intro a uid iter events htick
    obtain ⟨hiter, ha, huid⟩ := h.calling a uid iter events htick
    exact ⟨hiter, ha, fun hmem => huid ((hperm.map Sqe.uid).mem_iff.mp hmem)⟩
  · have hpending : ({ s with inflight := s.inflight.eraseIdx k, cq := s.cq ++ [⟨s.inflight[k], res⟩] } :
        IOService D).pending = s.pending ++ [(s.inflight[k].uid, s.inflight[k].context, res)] := by
      simp [IOService.pending, IOService.completions, Cqe.view]
    rw [hpending]
    exact channel_put _ _

theorem ioService_serves {s s' : IOService D} (h : IoOk s) (hok : Matched s a)
    (hs : (ioService entries m_size D).step s a = some (s', es)) :
    Serves entries s a es s' := by
  cases a with
  | submitRequest uid context =>
    cases hs
    exact serves_submitRequest h hok
  | begin =>
    simp only [ioService] at hs
    split at hs
    · rename_i htick
      cases hs
      refine h.quiet rfl rfl .rfl ?_ ?_ ?_ nofun ?_
      · simp [IOService.completions, htick, TickPc.events]
      · simp [IOService.queued, htick, TickPc.results]
      · rw [htick]
        rfl
      · rintro _ ⟨⟩
        trivial
    · cases hs
  | take => exact serves_take h hs
  | runFn a => exact serves_runFn h hok hs
  | submit ret => exact serves_submit h hs
  | wait ok =>
    simp only [ioService] at hs
    split at hs
    · rename_i htick
      cases hs
      cases ok
      all_goals
        refine h.turn ?_ ?_ ?_ nofun nofun <;> rw [htick] <;> rfl
    · cases hs
  | reap => exact serves_reap h hs
  | handle => exact serves_handle h hs
  | finish bret context => exact serves_finish h hs
  | complete k res => exact serves_complete h hs

theorem ioOk_init : IoOk (IOService.new m_size D) :=
  ⟨nofun, nofun, ⟨nofun, nofun, nofun, List.nodup_nil⟩, nofun⟩

def ioService_refines (entries m_size : Nat) (D : Type) :
    Refinement (ioService entries m_size D) (channels Unit (Nat × IoContext D × Int)) Matched where
  obs := IoEv.obs
  abs s := fun _ => s.pending
  inv := IoOk
  init_inv := ioOk_init
  init_abs := rfl
  step_inv h hok hs := (ioService_serves h hok hs).ok
  step_abs h hok hs := (ioService_serves h hok hs).fifo

-- ---------------------------------------------------------------------------
-- Completions and requests
-- ---------------------------------------------------------------------------

theorem puts_ioObs (tr : List (IoEv D)) : puts () (tr.flatMap IoEv.obs) = posted tr := by
  induction tr with
  | nil => rfl
  | cons e tr ih => cases e <;> simp [IoEv.obs, posted, puts, ih]

theorem gots_ioObs (tr : List (IoEv D)) : gots () (tr.flatMap IoEv.obs) = handled tr := by
  induction tr with
  | nil => rfl
  | cons e tr ih => cases e <;> simp [IoEv.obs, handled, gots, ih]

theorem posted_eq (h : (ioService entries m_size D).RunIf Matched tr s) :
    posted tr = handled tr ++ s.pending := by
  have hfifo := channels_fifo ((ioService_refines entries m_size D).run h) ()
  rwa [show (ioService_refines entries m_size D).obs = IoEv.obs from rfl, puts_ioObs, gots_ioObs]
    at hfifo

theorem finished_eq (h : (ioService entries m_size D).RunIf Matched tr s) :
    (handled tr).map Prod.fst = finished tr ++ s.tick.current := by
  refine h.invariant (I := fun tr s => (handled tr).map Prod.fst = finished tr ++ s.tick.current) rfl ?_
  intro tr s a s' es hr ih hok hs
  have hinv : IoOk s := (ioService_refines entries m_size D).run_inv hr
  rw [handled_append, finished_append, List.map_append, ih, List.append_assoc,
    (ioService_serves hinv hok hs).moves.current, ← List.append_assoc]

/-- The handler never stops at a context that is gone or an iterator at the end. -/
theorem handler_steps {s : IOService D} (h : IoOk s) :
    (∀ e events, s.tick = .handling (e :: events) →
      ((ioService entries m_size D).step s .handle).isSome) ∧
    ∀ a uid iter events, s.tick = .calling a uid iter events → ∀ bret context,
      ((ioService entries m_size D).step s (.finish bret context)).isSome := by
  refine ⟨?_, ?_⟩
  · intro e events htick
    simp only [ioService, htick, handle_eq (h.head htick).1]
    split <;> rfl
  · intro a uid iter events htick bret context
    obtain ⟨rfl, -, -⟩ := h.calling _ _ _ _ htick
    simp only [ioService, htick]
    cases bret <;> rfl

end

/-- Each completion is handled once, in the order the kernel made them, with the
context and the result of its own request; the context of every SQE or CQE on
its way is that of an entry of the map; a finished request's entry is gone just
when its call returned true, and no step touches the entry of another request. -/
theorem ioService_matches_completions (entries m_size : Nat) (D : Type) (tr : List (IoEv D))
    (s : IOService D) (h : (ioService entries m_size D).RunIf Matched tr s) :
    posted tr = handled tr ++ s.pending ∧
      (handled tr).map Prod.fst = finished tr ++ s.tick.current ∧
      (∀ sqe ∈ s.outstanding, Live s.m_fds_context s.nodes sqe) ∧
      (∀ a s' es, Matched s a → (ioService entries m_size D).step s a = some (s', es) →
        Touches s es s') ∧
      (∀ e events, s.tick = .handling (e :: events) →
        ((ioService entries m_size D).step s .handle).isSome) ∧
      ∀ a uid iter events, s.tick = .calling a uid iter events → ∀ bret context,
        ((ioService entries m_size D).step s (.finish bret context)).isSome := by
  have hinv : IoOk s := (ioService_refines entries m_size D).run_inv h
  exact ⟨posted_eq h, finished_eq h, hinv.custody.live,
    fun a s' es hok hs => (ioService_serves hinv hok hs).touches, handler_steps hinv⟩

instance {D : Type} (s : IOService D) : (a : IoAct D) → Decidable (Matched s a)
  | .submitRequest uid context => inferInstanceAs (Decidable (context.uid = some uid))
  | .runFn _ => inferInstanceAs (Decidable (∀ r ∈ s.tick.results.head?, s.m_fds_context r.1 = none))
  | .begin | .take | .submit _ | .wait _ | .reap | .handle | .finish .. | .complete .. => .isTrue trivial

theorem ioService_matches_completions_run : ∃ tr s, (ioService 8 8 Nat).RunIf Matched tr s ∧
    handled tr = [(6, ⟨some 60, some ⟨.READ, 6⟩⟩, 42), (5, ⟨some 50, some ⟨.OPEN, 5⟩⟩, 3)] ∧
    posted tr = handled tr ++ s.pending := by
  have hr : (((ioService 8 8 Nat).only Matched).replay (IOService.new 8 Nat)
      [.submitRequest 5 ⟨some 50, some ⟨.OPEN, 5⟩⟩, .submitRequest 6 ⟨some 60, some ⟨.READ, 6⟩⟩,
        .begin, .take, .take, .take, .take, .runFn 100, .runFn 200, .submit (some 2), .wait true,
        .complete 1 42, .complete 0 3, .reap, .handle,
        .submitRequest 7 ⟨none, some ⟨.CLOSE, 7⟩⟩, .finish false ⟨none, none⟩,
        .handle, .finish true ⟨none, none⟩, .handle]).isSome := rfl
  have hrun := Machine.steps_of_replay_only (Option.some_get hr).symm
  exact ⟨_, _, hrun, rfl, (ioService_matches_completions 8 8 Nat _ _ hrun).1⟩

-- ---------------------------------------------------------------------------
-- Accepted requests
-- ---------------------------------------------------------------------------

section

variable {D : Type} {entries m_size : Nat}

/-- Where a request is: queued, drained by the tick and about to be prepared,
carried by an SQE or CQE, or handled. -/
def Kept (tr : List (IoEv D)) (s : IOService D) (r : Nat × IoContext D) : Prop :=
  r ∈ s.m_request_submit_queue.contents ∨ r ∈ s.tick.results ∨
    (∃ sqe ∈ s.outstanding, sqe.request = r ∧ s.nodes sqe.user_data = some r.2) ∨
    r ∈ (handled tr).map request

theorem queue_eq (h : (ioService entries m_size D).RunIf Matched tr s) :
    acceptedRequests tr = stored tr ++ s.queued := by
  refine h.invariant (I := fun tr s => acceptedRequests tr = stored tr ++ s.queued) rfl ?_
  intro tr s a s' es hr ih hok hs
  have hmoves := (ioService_serves ((ioService_refines entries m_size D).run_inv hr) hok hs).moves
  rw [acceptedRequests_append, stored_append, ih, List.append_assoc, List.append_assoc, hmoves.queue]

theorem ring_perm (h : (ioService entries m_size D).RunIf Matched tr s) :
    s.outstanding.map Sqe.request ++ (handled tr).map request ++ refused tr ~ stored tr := by
  refine h.invariant (I := fun tr s =>
    s.outstanding.map Sqe.request ++ (handled tr).map request ++ refused tr ~ stored tr) .rfl ?_
  intro tr s a s' es hr ih hok hs
  have hmoves := (ioService_serves ((ioService_refines entries m_size D).run_inv hr) hok hs).moves
  have hring := hmoves.ring
  classical
  rw [List.perm_iff_count] at ih hring ⊢
  intro r
  specialize ih r
  specialize hring r
  simp only [handled_append, refused_append, stored_append, List.map_append, List.count_append]
    at ih hring ⊢
  omega

theorem stored_of_entry (h : (ioService entries m_size D).RunIf Matched tr s) :
    ∀ uid, s.m_fds_context uid ≠ none → uid ∈ (stored tr).map Prod.fst := by
  refine h.invariant (I := fun tr s =>
    ∀ uid, s.m_fds_context uid ≠ none → uid ∈ (stored tr).map Prod.fst) (by simp [ioService, IOService.new]) ?_
  intro tr s a s' es hr ih hok hs uid huid
  have htouches := (ioService_serves ((ioService_refines entries m_size D).run_inv hr) hok hs).touches
  rw [stored_append, List.map_append, List.mem_append]
  rcases htouches.other uid with hsame | hstored | hfinished
  · left
    refine ih uid fun hnone => huid ?_
    simpa [IOService.entry, hnone] using hsame
  · exact .inr hstored
  · left
    obtain ⟨e, he, heq⟩ := List.mem_filterMap.mp hfinished
    cases e <;> cases heq
    rename_i bret
    cases bret with
    | true => exact absurd (by simpa [IOService.entry] using htouches.erased uid he) huid
    | false => exact ih uid ((htouches.kept uid he).1 ▸ huid)

/-- Under uids that differ, no request finds an entry under its own. -/
theorem entry_of_queued (h : (ioService entries m_size D).RunIf Matched tr s)
    (hnodup : ((acceptedRequests tr).map Prod.fst).Nodup) (hr : r ∈ s.queued) :
    s.m_fds_context r.1 = none := by
  by_contra hentry
  have hstored := stored_of_entry h r.1 hentry
  rw [queue_eq h, List.map_append, List.nodup_append] at hnodup
  exact hnodup.2.2 _ hstored _ (List.mem_map_of_mem hr) rfl

theorem matched_of_nodup {ok : IOService D → IoAct D → Prop} (himp : ∀ s a, ok s a → Submits s a)
    (h : (ioService entries m_size D).RunIf ok tr s)
    (hnodup : ((acceptedRequests tr).map Prod.fst).Nodup) :
    (ioService entries m_size D).RunIf (fun s a => Matched s a ∧ ok s a) tr s := by
  revert hnodup
  refine h.invariant (I := fun tr s => ((acceptedRequests tr).map Prod.fst).Nodup →
    (ioService entries m_size D).RunIf (fun s a => Matched s a ∧ ok s a) tr s) (fun _ => .refl) ?_
  intro tr s a s' es _ ih hok hs hnodup
  rw [acceptedRequests_append, List.map_append] at hnodup
  have hrun := ih (List.nodup_append.mp hnodup).1
  have hmatched := hrun.mono fun _ _ h => h.1
  refine .step hrun ⟨?_, hok⟩ hs
  cases a with
  | submitRequest uid context => exact (himp _ _ hok).1
  | runFn addr =>
    intro r hr
    exact entry_of_queued hmatched (List.nodup_append.mp hnodup).1
      (List.mem_append_left _ (List.mem_of_mem_head? hr))
  | _ => trivial

theorem stored_of_refused (h : r ∈ refused es) : r ∈ stored (es : List (IoEv D)) := by
  obtain ⟨e, he, heq⟩ := List.mem_filterMap.mp h
  refine List.mem_filterMap.mpr ⟨e, he, ?_⟩
  split at heq
  · exact heq
  · cases heq

theorem prepares_of_accepted
    (h : (ioService entries m_size D).RunIf (fun s a => Matched s a ∧ Submits s a) tr s) :
    ∀ r ∈ acceptedRequests tr, r.2.prepares := by
  refine h.invariant (I := fun tr _ => ∀ r ∈ acceptedRequests tr, r.2.prepares) nofun ?_
  intro tr s a s' es hr ih hok hs r hmem
  have hinv := (ioService_refines entries m_size D).run_inv (hr.mono fun _ _ h => h.1)
  rw [acceptedRequests_append, List.mem_append] at hmem
  rcases hmem with hmem | hmem
  · exact ih r hmem
  · exact (ioService_serves hinv hok.1 hs).moves.submits hok.2 r hmem

/-- While the ring has room, every request that leaves the queue gets an SQE. -/
theorem refused_eq_nil (h : (ioService entries m_size D).RunIf
    (fun s a => Matched s a ∧ Submits s a ∧ Roomy entries s a) tr s) : refused tr = [] := by
  refine h.invariant (I := fun tr _ => refused tr = []) rfl ?_
  intro tr s a s' es hr ih hok hs
  have hrun := hr.step hok hs
  have hinv := (ioService_refines entries m_size D).run_inv (hr.mono fun _ _ h => h.1)
  rw [refused_append, ih, List.nil_append, List.eq_nil_iff_forall_not_mem]
  intro r hmem
  have haccepted : r ∈ acceptedRequests (tr ++ es) := by
    rw [queue_eq (hrun.mono fun _ _ h => h.1), stored_append]
    exact List.mem_append_left _ (List.mem_append_right _ (stored_of_refused hmem))
  have hprepares := prepares_of_accepted (hrun.mono fun _ _ h => ⟨h.1, h.2.1⟩) r haccepted
  rw [(ioService_serves hinv hok.1 hs).moves.roomy hok.2.2 r hmem] at hprepares
  cases hprepares

theorem accepted_perm (h : (ioService entries m_size D).RunIf Matched tr s) (hrefused : refused tr = []) :
    acceptedRequests tr ~ s.queued ++ s.outstanding.map Sqe.request ++ (handled tr).map request := by
  have hring := ring_perm h
  rw [hrefused, List.append_nil] at hring
  calc acceptedRequests tr
    _ = stored tr ++ s.queued := queue_eq h
    _ ~ s.queued ++ stored tr := List.perm_append_comm
    _ ~ s.queued ++ (s.outstanding.map Sqe.request ++ (handled tr).map request) :=
      hring.symm.append_left _
    _ = s.queued ++ s.outstanding.map Sqe.request ++ (handled tr).map request :=
      (List.append_assoc _ _ _).symm

theorem kept_of_mem {s : IOService D} (h : IoOk s)
    (hr : r ∈ s.queued ++ s.outstanding.map Sqe.request ++ (handled tr).map request) : Kept tr s r := by
  rw [List.mem_append, List.mem_append, IOService.queued, List.mem_append] at hr
  rcases hr with ((hr | hr) | hr) | hr
  · exact .inr (.inl hr)
  · exact .inl hr
  · obtain ⟨sqe, hsqe, rfl⟩ := List.mem_map.mp hr
    exact .inr (.inr (.inl ⟨sqe, hsqe, rfl, (h.custody.live sqe hsqe).context⟩))
  · exact .inr (.inr (.inr hr))

theorem mem_of_kept {s : IOService D} (hr : Kept tr s r) :
    r ∈ s.queued ++ s.outstanding.map Sqe.request ++ (handled tr).map request := by
  simp only [IOService.queued, List.mem_append]
  rcases hr with hr | hr | ⟨sqe, hsqe, rfl, -⟩ | hr
  · exact .inl (.inl (.inr hr))
  · exact .inl (.inl (.inl hr))
  · exact .inl (.inr (List.mem_map_of_mem hsqe))
  · exact .inr hr

theorem runFn_full {s' : IOService D} (h : (ioService entries m_size D).RunIf Matched tr s)
    (hnodup : ((acceptedRequests tr).map Prod.fst).Nodup) (hrefused : refused tr = [])
    (htick : s.tick = .running ((uid, context) :: results)) (hfull : ¬ Roomy entries s (.runFn a))
    (hs : (ioService entries m_size D).step s (.runFn a) = some (s', es)) :
    (uid, context) ∈ acceptedRequests (tr ++ es) ∧ ¬ Kept (tr ++ es) s' (uid, context) := by
  have hperm := accepted_perm h hrefused
  have hhead : s.queued = (uid, context) :: (results ++ s.m_request_submit_queue.contents) := by
    rw [IOService.queued, htick]
    rfl
  have hout : s.outstanding = s.sq ++ s.inflight ++ s.cq.map Cqe.sqe := by
    simp [IOService.outstanding, IOService.completions, htick, TickPc.events]
  rw [hhead, hout] at hperm
  have huid : s.m_fds_context uid = none :=
    entry_of_queued (r := (uid, context)) h hnodup (by simp [hhead])
  simp only [ioService, htick, Option.bind_eq_bind, Option.bind_eq_some_iff] at hs
  obtain ⟨r, hstore, hs⟩ := hs
  cases hs
  obtain ⟨-, -, ⟨-, hroom⟩ | ⟨rfl, -⟩⟩ := submitRequest_Private_eq huid hstore
  · exact absurd hroom hfull
  · refine ⟨?_, fun hkept => ?_⟩
    · rw [acceptedRequests_append]
      exact List.mem_append_left _ (hperm.mem_iff.mpr (.head _))
    · have honce := hperm.nodup_iff.mp (List.Nodup.of_map _ hnodup)
      have hmem := mem_of_kept hkept
      refine (List.nodup_cons.mp honce).1 ?_
      simpa [IOService.queued, IOService.outstanding, IOService.completions, TickPc.results,
        TickPc.events, IOService.store, handled] using hmem

end

/-- While every closure finds an empty SQE, each accepted request is queued, on
its way or handled, exactly once; a closure that finds none loses its request. -/
theorem ioService_keeps_requests (entries m_size : Nat) (D : Type) (tr : List (IoEv D))
    (s : IOService D)
    (h : (ioService entries m_size D).RunIf (fun s a => Submits s a ∧ Roomy entries s a) tr s)
    (hnodup : ((acceptedRequests tr).map Prod.fst).Nodup) :
    acceptedRequests tr ~ s.queued ++ s.outstanding.map Sqe.request ++ (handled tr).map request ∧
      (∀ r ∈ acceptedRequests tr, Kept tr s r) ∧
      ∀ uid context results a s' es, s.tick = .running ((uid, context) :: results) →
        ¬ Roomy entries s (.runFn a) → (ioService entries m_size D).step s (.runFn a) = some (s', es) →
        (uid, context) ∈ acceptedRequests (tr ++ es) ∧ ¬ Kept (tr ++ es) s' (uid, context) := by
  have hrun := matched_of_nodup (fun _ _ h => h.1) h hnodup
  have hmatched := hrun.mono fun _ _ h => h.1
  have hinv : IoOk s := (ioService_refines entries m_size D).run_inv hmatched
  have hrefused := refused_eq_nil hrun
  have hperm := accepted_perm hmatched hrefused
  refine ⟨hperm, fun r hr => kept_of_mem hinv (hperm.mem_iff.mp hr), ?_⟩
  intro uid context results a s' es htick hfull hs
  exact runFn_full hmatched hnodup hrefused htick hfull hs

instance {D : Type} (s : IOService D) : (a : IoAct D) → Decidable (Submits s a)
  | .submitRequest uid context => inferInstanceAs (Decidable (context.uid = some uid ∧ context.prepares))
  | .begin | .take | .runFn _ | .submit _ | .wait _ | .reap | .handle | .finish .. | .complete .. =>
    .isTrue trivial

instance {D : Type} (entries : Nat) (s : IOService D) : (a : IoAct D) → Decidable (Roomy entries s a)
  | .runFn _ => inferInstanceAs (Decidable (s.sq.length < entries))
  | .submitRequest .. | .begin | .take | .submit _ | .wait _ | .reap | .handle | .finish .. | .complete .. =>
    .isTrue trivial

instance {D : Type} [DecidableEq D] (tr : List (IoEv D)) (s : IOService D) (r : Nat × IoContext D) :
    Decidable (Kept tr s r) := inferInstanceAs (Decidable (_ ∨ _ ∨ _ ∨ _))

theorem ioService_keeps_requests_run : ∃ tr s,
    (ioService 1 1 Nat).RunIf (fun s a => Submits s a ∧ Roomy 1 s a) tr s ∧
      (handled tr).map Prod.fst = [5] ∧ s.queued = [(6, ⟨some 60, some ⟨.READ, 6⟩⟩)] ∧
      ∀ r ∈ acceptedRequests tr, Kept tr s r := by
  have hr : (((ioService 1 1 Nat).only fun s a => Submits s a ∧ Roomy 1 s a).replay (IOService.new 1 Nat)
      [.submitRequest 5 ⟨some 50, some ⟨.OPEN, 5⟩⟩, .begin, .take, .take, .take, .take,
        .submitRequest 6 ⟨some 60, some ⟨.READ, 6⟩⟩, .runFn 100, .submit (some 1), .wait true,
        .complete 0 3, .reap, .handle, .finish true ⟨none, none⟩, .handle]).isSome := rfl
  have hrun := Machine.steps_of_replay_only (Option.some_get hr).symm
  exact ⟨_, _, hrun, rfl, rfl, (ioService_keeps_requests 1 1 Nat _ _ hrun (by decide)).2.1⟩

/-- Two requests drained by one tick for a ring of one entry: the tick is over
and the second request is nowhere. -/
theorem ioService_loses_request : ∃ tr s, (ioService 1 1 Nat).RunIf Submits tr s ∧
    ((acceptedRequests tr).map Prod.fst).Nodup ∧ s.tick = .idle ∧ ∃ r ∈ acceptedRequests tr, ¬ Kept tr s r := by
  have hr : (((ioService 1 1 Nat).only Submits).replay (IOService.new 1 Nat)
      [.submitRequest 5 ⟨some 50, some ⟨.OPEN, 5⟩⟩, .submitRequest 6 ⟨some 60, some ⟨.READ, 6⟩⟩,
        .begin, .take, .take, .take, .take, .runFn 100, .runFn 200, .submit (some 1), .wait true,
        .complete 0 3, .reap, .handle, .finish true ⟨none, none⟩, .handle]).isSome := rfl
  refine ⟨_, _, Machine.steps_of_replay_only (Option.some_get hr).symm, by decide, rfl,
    (6, ⟨some 60, some ⟨.READ, 6⟩⟩), by decide, by decide⟩

end Andren.Network
