import Andren.Machine.OrderedMap

/-!
# The poller

`RePoller` keeps a callback and, after `notifyEvents`, a mask of custom events
for each file descriptor. A tick (`work`) takes the custom events out, merges
what epoll reports into them and calls the callbacks, by a walk over whichever
of the two maps it takes for the smaller one. The callbacks run on the same
thread and may call back into the poller.

Both walks make the calls `expected` names. What a callback posts stays for the
next tick, but `notifyEvents` overwrites: of several events posted for one
descriptor only the last one stays.
-/

namespace Andren.Network

open Machines Std

abbrev Events := BitVec 32

structure RePoller (Cb : Type) where
  m_callbacks : TreeMap Int Cb
  m_customEvents : TreeMap Int Events
  m_shutdown : Bool

namespace RePoller

variable {Cb : Type}

def notifyEvents (p : RePoller Cb) (fd : Int) (events : Events) : RePoller Cb × Bool :=
  if fd = 0 ∨ fd = -1 then (p, false)
  else if p.m_callbacks.contains fd then
    ({ p with m_customEvents := p.m_customEvents.insert fd events }, true)
  else (p, false)

/-- An empty `std::function` is `none`. -/
def setReadyCallback (p : RePoller Cb) (fd : Int) (onEventUP : Option Cb) : RePoller Cb × Bool :=
  match onEventUP with
  | none => (p, false)
  | some cb =>
    if fd = 0 ∨ fd = -1 then (p, false)
    else ({ p with m_callbacks := p.m_callbacks.insert fd cb }, true)

/-- `cancle`, up to the `epoll_ctl` that ends it. -/
def cancle (p : RePoller Cb) (fd : Int) : RePoller Cb :=
  { p with m_callbacks := p.m_callbacks.erase fd }

end RePoller

-- ---------------------------------------------------------------------------
-- Callbacks
-- ---------------------------------------------------------------------------

inductive PollerCall (Cb : Type)
  | notifyEvents (fd : Int) (events : Events)
  | setReadyCallback (fd : Int) (onEventUP : Option Cb)
  | cancle (fd : Int)

/-- What a callback does when it gets some events, after the calls a tick has
made before it. -/
abbrev Behaviour (Cb : Type) := List (Int × Events) → Cb → Events → List (PollerCall Cb)

/-- The callbacks leave the table of callbacks alone. -/
def Behaviour.Quiet (B : Behaviour Cb) : Prop :=
  ∀ log cb events, ∀ c ∈ B log cb events, ∃ fd e, c = .notifyEvents fd e

/-- A tick in progress: the poller, the calls made and the posts accepted. -/
structure Dispatch (Cb : Type) where
  poller : RePoller Cb
  calls : List (Int × Events)
  accepted : List (Int × Events)

namespace Dispatch

variable {Cb : Type}

def run (d : Dispatch Cb) : PollerCall Cb → Dispatch Cb
  | .notifyEvents fd events =>
    let (p, ok) := d.poller.notifyEvents fd events
    { d with poller := p, accepted := if ok then d.accepted ++ [(fd, events)] else d.accepted }
  | .setReadyCallback fd cb => { d with poller := (d.poller.setReadyCallback fd cb).1 }
  | .cancle fd => { d with poller := d.poller.cancle fd }

def invoke (B : Behaviour Cb) (d : Dispatch Cb) (fd : Int) (cb : Cb) (events : Events) : Dispatch Cb :=
  (B d.calls cb events).foldl run { d with calls := d.calls ++ [(fd, events)] }

end Dispatch

def PollerCall.cancles (fd : Int) : PollerCall Cb → Bool
  | .cancle fd' => fd' == fd
  | _ => false

-- ---------------------------------------------------------------------------
-- A tick
-- ---------------------------------------------------------------------------

inductive Stuck
  | fuel
  /-- The iterator's entry is gone. -/
  | erased
  deriving DecidableEq

/-- The walk over `currentEventsMap`, which no callback can reach. -/
def traverseEvents (B : Behaviour Cb) : List (Int × Events) → Dispatch Cb → Dispatch Cb
  | [], d => d
  | (fd, events) :: rest, d => match d.poller.m_callbacks[fd]? with
    | some cb => traverseEvents B rest (d.invoke B fd cb events)
    | none => traverseEvents B rest d

/-- The walk over `m_callbacks`, which the callbacks may change: the iterator
stands at a key and may not advance from an entry that was erased. -/
def traverseCallbacks (B : Behaviour Cb) (currentEventsMap : TreeMap Int Events) :
    Nat → Option Int → Dispatch Cb → Except Stuck (Dispatch Cb)
  | _, none, d => .ok d
  | 0, some _, _ => .error .fuel
  | fuel + 1, some fd, d => match d.poller.m_callbacks[fd]? with
    | none => .error .erased
    | some cb => match currentEventsMap[fd]? with
      | none => traverseCallbacks B currentEventsMap fuel (OrderedMap.next d.poller.m_callbacks fd) d
      | some events =>
        if (B d.calls cb events).any (PollerCall.cancles fd) then .error .erased
        else
          let d' := d.invoke B fd cb events
          traverseCallbacks B currentEventsMap fuel (OrderedMap.next d'.poller.m_callbacks fd) d'

def mergeEvents (currentEventsMap : TreeMap Int Events) (evs : List (Int × Events)) : TreeMap Int Events :=
  evs.foldl (fun m ev => match m[ev.1]? with
    | some events => m.insert ev.1 (events ||| ev.2)
    | none => m.insert ev.1 ev.2) currentEventsMap

inductive EpollWait
  | failed
  /-- It failed with `EINTR`. -/
  | interrupted
  | ready (evs : List (Int × Events))

def EpollWait.events : EpollWait → Option (List (Int × Events))
  | .failed => none
  | .interrupted => some []
  | .ready evs => some evs

namespace RePoller

variable {Cb : Type}

/-- The moved-from `m_customEvents` is empty. -/
def begin (p : RePoller Cb) : Dispatch Cb := ⟨{ p with m_customEvents := ∅ }, [], []⟩

def usedTimeoutMsec (p : RePoller Cb) (timeoutMsec : Int) : Int :=
  if p.m_customEvents.size > 0 then 1 else timeoutMsec

def work (B : Behaviour Cb) (fuel : Nat) (timeoutMsec : Int) (wait : Int → EpollWait)
    (p : RePoller Cb) : Except Stuck (Dispatch Cb) :=
  let numEvMap := p.m_customEvents.size
  let numCbMap := p.m_callbacks.size
  match (wait (p.usedTimeoutMsec timeoutMsec)).events with
  | none => .ok { p.begin with poller := { p.begin.poller with m_shutdown := true } }
  | some evs =>
    let currentEventsMap := mergeEvents p.m_customEvents evs
    if numEvMap < numCbMap then .ok (traverseEvents B currentEventsMap.toList p.begin)
    else traverseCallbacks B currentEventsMap fuel (OrderedMap.first p.m_callbacks) p.begin

end RePoller

-- ---------------------------------------------------------------------------
-- What a tick is expected to do
-- ---------------------------------------------------------------------------

def orAll : List Events → Option Events
  | [] => none
  | e :: es => some (es.foldl (· ||| ·) e)

def masks (evs : List (Int × Events)) (fd : Int) : List Events :=
  (evs.filter fun ev => ev.1 = fd).map Prod.snd

namespace RePoller

variable {Cb : Type}

def pendingMask (p : RePoller Cb) (evs : List (Int × Events)) (fd : Int) : Option Events :=
  orAll (p.m_customEvents[fd]?.toList ++ masks evs fd)

def due (p : RePoller Cb) (evs : List (Int × Events)) : List (Int × Cb × Events) :=
  p.m_callbacks.toList.filterMap fun x => (p.pendingMask evs x.1).map fun events => (x.1, x.2, events)

def expected (p : RePoller Cb) (evs : List (Int × Events)) : List (Int × Events) :=
  p.m_callbacks.keys.filterMap fun fd => (p.pendingMask evs fd).map fun events => (fd, events)

end RePoller

def acceptedPost (m_callbacks : TreeMap Int Cb) : PollerCall Cb → Option (Int × Events)
  | .notifyEvents fd events =>
    if fd ≠ 0 ∧ fd ≠ -1 ∧ m_callbacks.contains fd then some (fd, events) else none
  | _ => none

def postsFrom (B : Behaviour Cb) (m_callbacks : TreeMap Int Cb) :
    List (Int × Events) → List (Int × Cb × Events) → List (Int × Events)
  | _, [] => []
  | log, (fd, cb, events) :: entries =>
    (B log cb events).filterMap (acceptedPost m_callbacks) ++
      postsFrom B m_callbacks (log ++ [(fd, events)]) entries

def RePoller.posts (p : RePoller Cb) (B : Behaviour Cb) (evs : List (Int × Events)) : List (Int × Events) :=
  postsFrom B p.m_callbacks [] (p.due evs)

def lastPost (fd : Int) (posts : List (Int × Events)) : Option Events :=
  (masks posts fd).getLast?

def Covers (m e : Events) : Prop := m &&& e = e

/-- For each descriptor the last event posted has all bits of the others. -/
def LastCovers (posts : List (Int × Events)) : Prop :=
  ∀ fd e, (fd, e) ∈ posts → ∀ m, lastPost fd posts = some m → Covers m e

instance (m e : Events) : Decidable (Covers m e) := inferInstanceAs (Decidable (m &&& e = e))

instance (posts : List (Int × Events)) : Decidable (LastCovers posts) :=
  decidable_of_iff (∀ x ∈ posts, (lastPost x.1 posts).all fun m => decide (Covers m x.2)) <| by
    simp only [Option.all_eq_true, decide_eq_true_eq, Prod.forall]
    rfl

-- ---------------------------------------------------------------------------
-- Merging
-- ---------------------------------------------------------------------------

theorem masks_cons (ev : Int × Events) (evs : List (Int × Events)) (fd : Int) :
    masks (ev :: evs) fd = if ev.1 = fd then ev.2 :: masks evs fd else masks evs fd := by
  unfold masks
  rw [List.filter_cons]
  split <;> rename_i h <;> simp only [decide_eq_true_eq] at h <;> simp [h]

theorem masks_append (evs evs' : List (Int × Events)) (fd : Int) :
    masks (evs ++ evs') fd = masks evs fd ++ masks evs' fd := by
  simp [masks]

theorem getElem?_mergeEvents (m : TreeMap Int Events) (evs : List (Int × Events)) (fd : Int) :
    (mergeEvents m evs)[fd]? = orAll (m[fd]?.toList ++ masks evs fd) := by
  induction evs generalizing m with
  | nil => cases h : m[fd]? <;> simp [mergeEvents, h, masks, orAll]
  | cons ev evs ih =>
    obtain ⟨fd', e⟩ := ev
    rw [show mergeEvents m ((fd', e) :: evs) = mergeEvents (match m[fd']? with
      | some events => m.insert fd' (events ||| e)
      | none => m.insert fd' e) evs from rfl, ih, masks_cons]
    rcases eq_or_ne fd' fd with rfl | hne
    · cases h : m[fd']? <;> simp [orAll]
    · cases h : m[fd']? <;> simp [TreeMap.getElem?_insert, hne]

theorem due_eq_join (p : RePoller Cb) (evs : List (Int × Events)) :
    p.due evs = OrderedMap.join p.m_callbacks (mergeEvents p.m_customEvents evs) := by
  unfold RePoller.due OrderedMap.join OrderedMap.joinList RePoller.pendingMask
  simp only [getElem?_mergeEvents, Option.map_map, Function.comp_def]

theorem expected_eq_due (p : RePoller Cb) (evs : List (Int × Events)) :
    p.expected evs = (p.due evs).map fun x => (x.1, x.2.2) := by
  unfold RePoller.expected RePoller.due
  rw [← TreeMap.map_fst_toList_eq_keys, List.filterMap_map, List.map_filterMap]
  simp only [Option.map_map, Function.comp_def]

-- ---------------------------------------------------------------------------
-- The two walks
-- ---------------------------------------------------------------------------

section

variable {Cb : Type} {B : Behaviour Cb} {cbs : TreeMap Int Cb}

def Dispatch.invokeAll (B : Behaviour Cb) (d : Dispatch Cb) (entries : List (Int × Cb × Events)) : Dispatch Cb :=
  entries.foldl (fun d x => d.invoke B x.1 x.2.1 x.2.2) d

theorem notifyEvents_eq (p : RePoller Cb) (fd : Int) (e : Events) :
    p.notifyEvents fd e = if fd ≠ 0 ∧ fd ≠ -1 ∧ p.m_callbacks.contains fd then
      ({ p with m_customEvents := p.m_customEvents.insert fd e }, true) else (p, false) := by
  unfold RePoller.notifyEvents
  split
  · rename_i h
    exact (if_neg fun h' => h.elim h'.1 h'.2.1).symm
  · rename_i h
    obtain ⟨h₀, h₁⟩ := not_or.mp h
    split
    · rename_i hmem
      exact (if_pos ⟨h₀, h₁, hmem⟩).symm
    · rename_i hmem
      exact (if_neg fun h' => hmem h'.2.2).symm

theorem run_notifyEvents (d : Dispatch Cb) (fd : Int) (e : Events) :
    (d.run (.notifyEvents fd e)).poller.m_callbacks = d.poller.m_callbacks ∧
      (d.run (.notifyEvents fd e)).calls = d.calls ∧
      (d.run (.notifyEvents fd e)).accepted =
        d.accepted ++ (acceptedPost d.poller.m_callbacks (.notifyEvents fd e)).toList := by
  unfold Dispatch.run acceptedPost
  dsimp only
  rw [notifyEvents_eq]
  split
  · exact ⟨rfl, rfl, rfl⟩
  · exact ⟨rfl, rfl, (List.append_nil _).symm⟩

theorem foldl_run_quiet {cs : List (PollerCall Cb)} (hcs : ∀ c ∈ cs, ∃ fd e, c = .notifyEvents fd e)
    (d : Dispatch Cb) :
    (cs.foldl Dispatch.run d).poller.m_callbacks = d.poller.m_callbacks ∧
      (cs.foldl Dispatch.run d).calls = d.calls ∧
      (cs.foldl Dispatch.run d).accepted =
        d.accepted ++ cs.filterMap (acceptedPost d.poller.m_callbacks) := by
  induction cs generalizing d with
  | nil => simp
  | cons c cs ih =>
    obtain ⟨fd, e, rfl⟩ := hcs c (.head _)
    obtain ⟨hcb, hcalls, hacc⟩ := ih (fun c hc => hcs c (.tail _ hc)) (d.run (.notifyEvents fd e))
    have hrun := run_notifyEvents d fd e
    obtain ⟨hcb', hcalls', hacc'⟩ := hrun
    rw [List.foldl_cons]
    refine ⟨hcb.trans hcb', hcalls.trans hcalls', ?_⟩
    rw [hacc, hcb', hacc', List.filterMap_cons]
    cases acceptedPost d.poller.m_callbacks (.notifyEvents fd e) <;> simp

theorem invoke_quiet (hB : B.Quiet) (d : Dispatch Cb) (fd : Int) (cb : Cb) (e : Events) :
    (d.invoke B fd cb e).poller.m_callbacks = d.poller.m_callbacks ∧
      (d.invoke B fd cb e).calls = d.calls ++ [(fd, e)] ∧
      (d.invoke B fd cb e).accepted =
        d.accepted ++ (B d.calls cb e).filterMap (acceptedPost d.poller.m_callbacks) :=
  foldl_run_quiet (hB d.calls cb e) _

theorem traverseEvents_eq (hB : B.Quiet) {d : Dispatch Cb} (hd : d.poller.m_callbacks = cbs)
    (l : List (Int × Events)) : traverseEvents B l d =
      d.invokeAll B ((OrderedMap.joinList l cbs).map fun x => (x.1, x.2.2, x.2.1)) := by
  induction l generalizing d with
  | nil => rfl
  | cons x l ih =>
    obtain ⟨fd, e⟩ := x
    rw [traverseEvents, hd]
    split
    · rename_i cb hcb
      rw [OrderedMap.joinList_cons_some hcb, ih ((invoke_quiet hB d fd cb e).1.trans hd)]
      rfl
    · rename_i hcb
      rw [OrderedMap.joinList_cons_none hcb, ih hd]

/-- The walk stands at the first of `ys`. The induction is on what is left of
the table, and the fuel covers it. -/
theorem traverseCallbacks_eq (hB : B.Quiet) (current : TreeMap Int Events) {d : Dispatch Cb}
    (hd : d.poller.m_callbacks = cbs) (hcbs : cbs.toList = xs ++ ys) (hfuel : ys.length ≤ fuel) :
    traverseCallbacks B current fuel (ys.head?.map Prod.fst) d =
      .ok (d.invokeAll B (OrderedMap.joinList ys current)) := by
  induction ys generalizing xs fuel d with
  | nil => cases fuel <;> rfl
  | cons y ys ih =>
    obtain ⟨fd, cb⟩ := y
    obtain ⟨fuel, rfl⟩ := Nat.exists_eq_add_of_le' (Nat.one_le_of_lt hfuel)
    replace hfuel : ys.length ≤ fuel := Nat.le_of_succ_le_succ hfuel
    have hcb : cbs[fd]? = some cb := by
      rw [← TreeMap.mem_toList_iff_getElem?_eq_some, hcbs]
      exact List.mem_append_right _ (.head _)
    have hkeys : cbs.keys = xs.map Prod.fst ++ fd :: ys.map Prod.fst := by
      rw [← TreeMap.map_fst_toList_eq_keys, hcbs, List.map_append, List.map_cons]
    have hnext : OrderedMap.next cbs fd = ys.head?.map Prod.fst := by
      rw [OrderedMap.next_eq hkeys, List.head?_map]
    have hcbs' : cbs.toList = (xs ++ [(fd, cb)]) ++ ys := by rw [hcbs]; simp
    rw [List.head?_cons, Option.map_some, traverseCallbacks, hd, hcb]
    dsimp only
    split
    · rename_i hcur
      rw [hnext, OrderedMap.joinList_cons_none hcur]
      exact ih hd hcbs' hfuel
    · rename_i e hcur
      obtain ⟨htable, -, -⟩ := invoke_quiet hB d fd cb e
      have hcancle : (B d.calls cb e).any (PollerCall.cancles fd) = false := by
        rw [List.any_eq_false]
        intro c hc
        obtain ⟨fd', e', rfl⟩ := hB d.calls cb e c hc
        exact Bool.false_ne_true
      rw [hcancle, if_neg Bool.false_ne_true, htable, hd, hnext, OrderedMap.joinList_cons_some hcur]
      exact ih (htable.trans hd) hcbs' hfuel

theorem invokeAll_quiet (hB : B.Quiet) (d : Dispatch Cb) (entries : List (Int × Cb × Events)) :
    (d.invokeAll B entries).poller.m_callbacks = d.poller.m_callbacks ∧
      (d.invokeAll B entries).calls = d.calls ++ entries.map (fun x => (x.1, x.2.2)) ∧
      (d.invokeAll B entries).accepted =
        d.accepted ++ postsFrom B d.poller.m_callbacks d.calls entries := by
  induction entries generalizing d with
  | nil => simp [Dispatch.invokeAll, postsFrom]
  | cons x entries ih =>
    obtain ⟨fd, cb, e⟩ := x
    obtain ⟨hcb, hcalls, hacc⟩ := ih (d.invoke B fd cb e)
    obtain ⟨hcb', hcalls', hacc'⟩ := invoke_quiet hB d fd cb e
    refine ⟨hcb.trans hcb', ?_, ?_⟩
    · rw [show d.invokeAll B ((fd, cb, e) :: entries) = (d.invoke B fd cb e).invokeAll B entries from rfl,
        hcalls, hcalls']
      simp
    · rw [show d.invokeAll B ((fd, cb, e) :: entries) = (d.invoke B fd cb e).invokeAll B entries from rfl,
        hacc, hacc', hcalls', hcb', postsFrom, List.append_assoc]

theorem lastPost_append (fd fd' : Int) (e : Events) (posts : List (Int × Events)) :
    lastPost fd (posts ++ [(fd', e)]) = if fd' = fd then some e else lastPost fd posts := by
  unfold lastPost
  rw [masks_append, masks_cons]
  split
  · simp [masks]
  · simp [masks]

def KeepsLast (d : Dispatch Cb) : Prop :=
  ∀ fd, d.poller.m_customEvents[fd]? = lastPost fd d.accepted

theorem KeepsLast.run (h : KeepsLast d) (c : PollerCall Cb) : KeepsLast (d.run c) := by
  cases c with
  | notifyEvents fd e =>
    intro fd'
    unfold Dispatch.run
    dsimp only
    rw [notifyEvents_eq]
    split
    · rw [if_pos rfl, lastPost_append, TreeMap.getElem?_insert, h fd']
      simp only [LawfulEqCmp.compare_eq_iff_eq]
    · exact h fd'
  | setReadyCallback fd cb =>
    intro fd'
    unfold Dispatch.run RePoller.setReadyCallback
    rcases cb with _ | cb
    · exact h fd'
    · dsimp only
      split <;> exact h fd'
  | cancle fd => exact h

theorem KeepsLast.invokeAll (h : KeepsLast d) (entries : List (Int × Cb × Events)) :
    KeepsLast (d.invokeAll B entries) := by
  induction entries generalizing d with
  | nil => exact h
  | cons x entries ih =>
    refine ih (d := d.invoke B x.1 x.2.1 x.2.2) ?_
    have hlog : KeepsLast { d with calls := d.calls ++ [(x.1, x.2.2)] } := h
    unfold Dispatch.invoke
    generalize B d.calls x.2.1 x.2.2 = cs
    revert hlog
    generalize ({ d with calls := d.calls ++ [(x.1, x.2.2)] } : Dispatch Cb) = d'
    intro hlog
    induction cs generalizing d' with
    | nil => exact hlog
    | cons c cs ih => exact ih _ (hlog.run c)

theorem keepsLast_begin (p : RePoller Cb) : KeepsLast p.begin := by
  intro fd
  simp [RePoller.begin, lastPost, masks]

-- ---------------------------------------------------------------------------
-- A tick and the next one
-- ---------------------------------------------------------------------------

def RePoller.dispatch (B : Behaviour Cb) (p : RePoller Cb) (evs : List (Int × Events)) : Dispatch Cb :=
  p.begin.invokeAll B (p.due evs)

theorem dispatch_byEvents (hB : B.Quiet) (p : RePoller Cb) (evs : List (Int × Events)) :
    traverseEvents B (mergeEvents p.m_customEvents evs).toList p.begin = p.dispatch B evs := by
  rw [traverseEvents_eq hB (rfl : p.begin.poller.m_callbacks = p.m_callbacks), RePoller.dispatch, due_eq_join,
    OrderedMap.join_comm]
  rfl

theorem dispatch_byCallbacks (hB : B.Quiet) (p : RePoller Cb) (evs : List (Int × Events))
    (hfuel : p.m_callbacks.size ≤ fuel) :
    traverseCallbacks B (mergeEvents p.m_customEvents evs) fuel (OrderedMap.first p.m_callbacks)
      p.begin = .ok (p.dispatch B evs) := by
  have hfirst : OrderedMap.first p.m_callbacks = p.m_callbacks.toList.head?.map Prod.fst := by
    rw [OrderedMap.first, ← TreeMap.map_fst_toList_eq_keys, List.head?_map]
  have hlen : p.m_callbacks.toList.length ≤ fuel := by rwa [TreeMap.length_toList]
  rw [hfirst, RePoller.dispatch, due_eq_join]
  exact traverseCallbacks_eq hB _ rfl (List.nil_append _).symm hlen

theorem work_eq_dispatch (hB : B.Quiet) (p : RePoller Cb) (hfuel : p.m_callbacks.size ≤ fuel)
    (hwait : (wait (p.usedTimeoutMsec timeoutMsec)).events = some evs) :
    p.work B fuel timeoutMsec wait = .ok (p.dispatch B evs) := by
  unfold RePoller.work
  simp only [hwait]
  split
  · rw [dispatch_byEvents hB]
  · exact dispatch_byCallbacks hB p evs hfuel

theorem dispatch_calls (hB : B.Quiet) (p : RePoller Cb) (evs : List (Int × Events)) :
    (p.dispatch B evs).calls = p.expected evs := by
  rw [expected_eq_due]
  exact (invokeAll_quiet hB p.begin (p.due evs)).2.1

theorem dispatch_accepted (hB : B.Quiet) (p : RePoller Cb) (evs : List (Int × Events)) :
    (p.dispatch B evs).accepted = p.posts B evs :=
  (invokeAll_quiet hB p.begin (p.due evs)).2.2

theorem dispatch_customEvents (B : Behaviour Cb) (p : RePoller Cb) (evs : List (Int × Events)) (fd : Int) :
    (p.dispatch B evs).poller.m_customEvents[fd]? = lastPost fd (p.dispatch B evs).accepted :=
  (keepsLast_begin p).invokeAll (p.due evs) fd

theorem filter_filterMap_of_not_mem {fds : List Int} (hfd : fd ∉ fds) (f : Int → Option Events) :
    (fds.filterMap fun k => (f k).map fun e => (k, e)).filter (fun call => call.1 = fd) = [] := by
  rw [List.filter_eq_nil_iff]
  rintro ⟨k, e⟩ hmem
  obtain ⟨k', hk', hk⟩ := List.mem_filterMap.mp hmem
  obtain ⟨_, -, heq⟩ := Option.map_eq_some_iff.mp hk
  cases heq
  simpa using fun h : k = fd => hfd (h ▸ hk')

theorem filter_expected (p : RePoller Cb) (hfd : p.m_callbacks.contains fd = true)
    (he : p.pendingMask evs fd = some e) :
    (p.expected evs).filter (fun call => call.1 = fd) = [(fd, e)] := by
  have hmem : fd ∈ p.m_callbacks.keys := by
    rw [TreeMap.mem_keys]
    exact TreeMap.contains_iff_mem.mp hfd
  obtain ⟨xs, ys, hkeys⟩ := List.append_of_mem hmem
  have hnodup : (xs ++ fd :: ys).Nodup := by
    rw [← hkeys]
    exact p.m_callbacks.ordered_keys.imp fun h heq => by simp [heq] at h
  obtain ⟨hys, hxs⟩ : fd ∉ ys ∧ fd ∉ xs := by
    rw [List.nodup_append, List.nodup_cons] at hnodup
    exact ⟨hnodup.2.1.1, fun h => hnodup.2.2 fd h fd (.head _) rfl⟩
  unfold RePoller.expected
  rw [hkeys, List.filterMap_append, List.filter_append, filter_filterMap_of_not_mem hxs,
    List.filterMap_cons, he]
  simp [filter_filterMap_of_not_mem hys]

theorem Covers.refl (m : Events) : Covers m m := BitVec.and_self

theorem Covers.trans (h : Covers m e) (h' : Covers e e') : Covers m e' := by
  unfold Covers at *
  rw [← h', ← BitVec.and_assoc, h]

theorem covers_foldl (es : List Events) (m : Events) : Covers (es.foldl (· ||| ·) m) m := by
  induction es generalizing m with
  | nil => exact .refl m
  | cons e es ih =>
    refine (ih (m ||| e)).trans ?_
    unfold Covers
    ext i
    simp only [BitVec.getElem_and, BitVec.getElem_or]
    cases m[i] <;> simp

theorem pendingMask_covers (p : RePoller Cb) (evs : List (Int × Events))
    (h : p.m_customEvents[fd]? = some m) : ∃ e, p.pendingMask evs fd = some e ∧ Covers e m := by
  unfold RePoller.pendingMask
  rw [h]
  exact ⟨_, rfl, covers_foldl _ m⟩

theorem mem_masks : e ∈ masks posts fd ↔ (fd, e) ∈ posts := by
  simp [masks]

theorem mem_posts (h : (fd, e) ∈ postsFrom B cbs log entries) : cbs.contains fd = true := by
  induction entries generalizing log with
  | nil => cases h
  | cons x entries ih =>
    obtain ⟨fd', cb, e'⟩ := x
    rcases List.mem_append.mp h with h | h
    · obtain ⟨c, -, hc⟩ := List.mem_filterMap.mp h
      cases c with
      | notifyEvents fd'' e'' =>
        obtain ⟨⟨-, -, hmem⟩, heq⟩ := Option.ite_none_right_eq_some.mp hc
        cases heq
        exact hmem
      | _ => cases hc
    · exact ih h

end

structure Dispatched (B : Behaviour Cb) (p : RePoller Cb) (evs : List (Int × Events))
    (d : Dispatch Cb) : Prop where
  byEvents : traverseEvents B (mergeEvents p.m_customEvents evs).toList p.begin = d
  byCallbacks : ∀ fuel, p.m_callbacks.size ≤ fuel →
    traverseCallbacks B (mergeEvents p.m_customEvents evs) fuel (OrderedMap.first p.m_callbacks)
      p.begin = .ok d
  work : ∀ fuel timeoutMsec wait, p.m_callbacks.size ≤ fuel →
    (wait (p.usedTimeoutMsec timeoutMsec)).events = some evs →
    p.work B fuel timeoutMsec wait = .ok d
  calls : d.calls = p.expected evs
  /-- A post is kept: the next tick calls its descriptor once, with its bits. -/
  kept : ∀ fd e, (fd, e) ∈ d.accepted → ∀ B' : Behaviour Cb, B'.Quiet →
    ∀ fuel timeoutMsec wait evs', d.poller.m_callbacks.size ≤ fuel →
      (wait (d.poller.usedTimeoutMsec timeoutMsec)).events = some evs' →
      ∃ d' m, d.poller.work B' fuel timeoutMsec wait = .ok d' ∧
        d'.calls.filter (fun call => call.1 = fd) = [(fd, m)] ∧ Covers m e
  /-- Nothing else is kept, so nothing is delivered twice. -/
  once : ∀ fd e, d.poller.m_customEvents[fd]? = some e → (fd, e) ∈ d.accepted

section

variable {Cb : Type} {B : Behaviour Cb}

theorem dispatch_registered (hB : B.Quiet) (p : RePoller Cb)
    (h : (fd, e) ∈ (p.dispatch B evs).accepted) :
    (p.dispatch B evs).poller.m_callbacks.contains fd = true := by
  rw [dispatch_accepted hB] at h
  rw [show (p.dispatch B evs).poller.m_callbacks = p.m_callbacks from
    (invokeAll_quiet hB p.begin (p.due evs)).1]
  exact mem_posts h

theorem dispatched (hB : B.Quiet) (p : RePoller Cb) (evs : List (Int × Events))
    (h : LastCovers (p.posts B evs)) : Dispatched B p evs (p.dispatch B evs) where
  byEvents := dispatch_byEvents hB p evs
  byCallbacks _ := dispatch_byCallbacks hB p evs
  work _ _ _ hfuel hwait := work_eq_dispatch hB p hfuel hwait
  calls := dispatch_calls hB p evs
  kept := by
    intro fd e hmem B' hB' fuel timeoutMsec wait evs' hfuel hwait
    have hcustom := dispatch_customEvents B p evs fd
    obtain ⟨m, hm⟩ : ∃ m, lastPost fd (p.dispatch B evs).accepted = some m :=
      Option.ne_none_iff_exists'.mp fun hnone =>
        List.ne_nil_of_mem (mem_masks.mpr hmem) (List.getLast?_eq_none_iff.mp hnone)
    obtain ⟨e', hpending, hcovers⟩ := pendingMask_covers _ evs' (hcustom.trans hm)
    have hcalls := filter_expected _ (dispatch_registered hB p hmem) hpending
    rw [dispatch_accepted hB] at hmem hm
    refine ⟨_, e', work_eq_dispatch hB' _ hfuel hwait, ?_, hcovers.trans (h fd e hmem m hm)⟩
    rw [dispatch_calls hB', hcalls]
  once := by
    intro fd e he
    rw [dispatch_customEvents] at he
    exact mem_masks.mp (List.mem_of_getLast? he)

/-- When epoll reports nothing, the next tick passes on the last post only. -/
theorem Dispatched.lastCovers (hB : B.Quiet) {p : RePoller Cb} (h : Dispatched B p evs d) :
    LastCovers (p.posts B evs) := by
  obtain rfl : p.dispatch B evs = d := (dispatch_byEvents hB p evs).symm.trans h.byEvents
  rw [← dispatch_accepted hB]
  intro fd e hmem m hm
  let B' : Behaviour Cb := fun _ _ _ => []
  have hquiet : B'.Quiet := nofun
  obtain ⟨d', m', hwork, hcalls, hcovers⟩ :=
    h.kept fd e hmem _ hquiet _ 0 (fun _ => .interrupted) [] (Nat.le_refl _) rfl
  have hwork' : (p.dispatch B evs).poller.work B' _ 0 (fun _ => .interrupted) =
      .ok ((p.dispatch B evs).poller.dispatch B' []) :=
    work_eq_dispatch hquiet _ (Nat.le_refl _) rfl
  obtain rfl := Except.ok.inj (hwork.symm.trans hwork')
  have hpending : (p.dispatch B evs).poller.pendingMask [] fd = some m := by
    unfold RePoller.pendingMask
    rw [dispatch_customEvents, hm]
    rfl
  have hcalls' := filter_expected _ (dispatch_registered hB p hmem) hpending
  rw [← dispatch_calls hquiet, hcalls] at hcalls'
  cases hcalls'
  exact hcovers

end

/-- A tick calls every registered descriptor that has events once, in ascending
order, with all its events, whichever walk it takes; and the callbacks' posts
stay for the next tick, just when the last post for each descriptor has all
bits of the earlier ones. -/
theorem rePoller_dispatches_once (B : Behaviour Cb) (hB : B.Quiet) (p : RePoller Cb)
    (evs : List (Int × Events)) :
    (∃ d, Dispatched B p evs d) ↔ LastCovers (p.posts B evs) :=
  ⟨fun ⟨_, h⟩ => h.lastCovers hB, fun h => ⟨_, dispatched hB p evs h⟩⟩

theorem rePoller_dispatches_once_two : ∃ d, Dispatched (fun _ _ e => [.notifyEvents 9 (e ||| 32)])
    ⟨(∅ : TreeMap Int Unit).insert 7 () |>.insert 9 (), (∅ : TreeMap Int Events).insert 9 3, false⟩
    [(7, 1), (9, 4), (5, 1), (7, 2), (9, 8)] d := by
  refine (rePoller_dispatches_once _ ?_ _ _).mpr (by decide)
  rintro log cb e c hc
  exact ⟨9, _, List.mem_singleton.mp hc⟩

def postsTwice : Behaviour Unit := fun _ _ _ => [.notifyEvents 7 1, .notifyEvents 7 2]

/-- Both posts are accepted and the second one overwrites the first. -/
theorem rePoller_loses_post : postsTwice.Quiet ∧ ¬∃ d, Dispatched postsTwice
    ⟨(∅ : TreeMap Int Unit).insert 7 (), (∅ : TreeMap Int Events).insert 7 4, false⟩ [] d := by
  have hquiet : postsTwice.Quiet := by
    rintro log cb e c (_ | ⟨_, _ | ⟨_, hc⟩⟩)
    · exact ⟨7, 1, rfl⟩
    · exact ⟨7, 2, rfl⟩
    · cases hc
  refine ⟨hquiet, ?_⟩
  rintro ⟨d, h⟩
  exact absurd (h.lastCovers hquiet) (by decide)

end Andren.Network
