import Andren.Base.Zlib
import Andren.Machine.Basic
import Andren.Network.SockStream
import Mathlib.Data.List.TakeDrop

/-!
# Datagrams

A datagram socket under the poller reads one datagram for each event, into a buffer of 2048
bytes, and passes it to `onRead` with the address of its sender. As for a stream a result of 0
counts as the end: `onClose` is called and the descriptor taken from the poller. But an empty
datagram gives 0 as well, and of a long one only the front fits the buffer. So every datagram
is delivered if and only if those that were read have from 1 to 2048 bytes
(`datagrams_delivered_iff`).
-/

namespace Andren.Network

open Base Machines Std

/-- A datagram as it arrives, up to the maximum of UDP, with its sender's address, which fits
a `sockaddr_storage`. -/
structure Datagram where
  message : Bytes
  saddr : Bytes
  message_fits : message.length ≤ 65507
  saddr_fits : saddr.length ≤ 128
  deriving DecidableEq

/-- What the kernel and the poller have of a socket that listens. -/
structure Receiving where
  poller : RePoller Unit
  epoll : Int → Option Events
  queue : List Datagram

inductive DataGramAct
  | arrives (d : Datagram)
  /-- The poller calls the callback with what epoll reports. -/
  | ready

inductive DataGramEv
  | arrived (d : Datagram)
  /-- The datagram that `recvfrom` takes from the kernel. -/
  | received (d : Datagram)
  | onRead (ret : Int) (message saddr : Bytes)
  | onClose
  deriving DecidableEq

-- ---------------------------------------------------------------------------
-- The code
-- ---------------------------------------------------------------------------

/-- `::recvfrom` with a buffer of `size` bytes and room for `len` bytes of the address: its
result, what it writes to both, the length of the address, and what is left in the kernel. -/
def recvfrom (queue : List Datagram) (size len : Nat) : Int × Bytes × Bytes × Nat × List Datagram :=
  match queue with
  | [] => (-1, [], [], len, [])
  | d :: queue => ((d.message.take size).length, d.message.take size, d.saddr.take len, d.saddr.length, queue)

namespace DataGram

def tryRead (queue : List Datagram) : (Int × Bytes) × Bytes × Nat × List Datagram :=
  let (ret, tmp, ss, len, queue) := recvfrom queue 2048 128
  if ret < 0 then ((ret, []), ss, len, queue)
  else if ret = 0 then ((ret, []), ss, len, queue)
  else ((ret, tmp), ss, len, queue)

/-- The callback, on `EPOLLIN`. The object is alive and its callbacks are set. -/
def onEvents (fd : Int) (s : Receiving) : Receiving × List DataGramEv :=
  let ((key, value), ss, len, queue) := tryRead s.queue
  if key = 0 then (⟨s.poller.cancle fd, Function.update s.epoll fd none, queue⟩, [.onClose])
  else if key < 0 then ({ s with queue := queue }, [.onClose])
  else ({ s with queue := queue }, [.onRead key value (ss.take len)])

def listenReadEvent (fd : Int) (poller : RePoller Unit) (epoll : Int → Option Events) : Receiving :=
  ⟨(poller.setReadyCallback fd (some ())).1, Function.update epoll fd (some EPOLLIN), []⟩

end DataGram

structure Receiving.Registered (s : Receiving) (fd : Int) : Prop where
  epoll : s.epoll fd = some EPOLLIN
  callback : s.poller.m_callbacks[fd]? = some ()

instance (s : Receiving) (fd : Int) : Decidable (s.Registered fd) :=
  decidable_of_iff (s.epoll fd = some EPOLLIN ∧ s.poller.m_callbacks[fd]? = some ())
    ⟨fun h => ⟨h.1, h.2⟩, fun h => ⟨h.1, h.2⟩⟩

/-- A socket that listens, from the call of `listenReadEvent` on. The poller does not take a
descriptor 0. -/
def dataGram (poller : RePoller Unit) (epoll : Int → Option Events) (fd : { fd : Int // 0 < fd }) :
    Machine Receiving DataGramAct DataGramEv where
  init := DataGram.listenReadEvent fd poller epoll
  step s
    | .arrives d => some ({ s with queue := s.queue ++ [d] }, [.arrived d])
    | .ready =>
      match s.queue with
      | [] => none
      | d :: _ =>
        if s.Registered fd then
          let (s, es) := DataGram.onEvents fd s
          some (s, .received d :: es)
        else none

-- ---------------------------------------------------------------------------
-- Delivery
-- ---------------------------------------------------------------------------

namespace DataGramEv

def arrival : DataGramEv → Option Datagram
  | .arrived d => some d
  | _ => none

def reception : DataGramEv → Option Datagram
  | .received d => some d
  | _ => none

def delivery : DataGramEv → Option (Int × Bytes × Bytes)
  | .onRead ret message saddr => some (ret, message, saddr)
  | _ => none

end DataGramEv

def receptions (tr : List DataGramEv) : List Datagram := tr.filterMap DataGramEv.reception

def Datagram.whole (d : Datagram) : Int × Bytes × Bytes := (d.message.length, d.message, d.saddr)

/-- What arrived was passed to `onRead` in turn or waits in the kernel, `onClose` was not
called, and the descriptor is still registered. -/
structure DeliversAll (fd : Int) (tr : List DataGramEv) (s : Receiving) : Prop where
  delivered : tr.filterMap DataGramEv.delivery ++ s.queue.map Datagram.whole =
    (tr.filterMap DataGramEv.arrival).map Datagram.whole
  opened : .onClose ∉ tr
  registered : s.Registered fd

def Datagram.front (d : Datagram) : Int × Bytes × Bytes :=
  ((d.message.take 2048).length, d.message.take 2048, d.saddr)

def Datagram.cut (d : Datagram) : Option (Int × Bytes × Bytes) := if d.message = [] then none else some d.front

section

variable {fd : { fd : Int // 0 < fd }} {s : Receiving}

theorem onEvents_empty (hqueue : s.queue = d :: rest) (hempty : d.message = []) :
    DataGram.onEvents fd s = (⟨s.poller.cancle fd, Function.update s.epoll fd none, rest⟩, [.onClose]) := by
  simp [DataGram.onEvents, DataGram.tryRead, recvfrom, hqueue, hempty]

theorem onEvents_reads (hqueue : s.queue = d :: rest) (hne : d.message ≠ []) : DataGram.onEvents fd s =
    ({ s with queue := rest }, [.onRead (d.message.take 2048).length (d.message.take 2048) d.saddr]) := by
  have hneg : ¬((d.message.take 2048).length : Int) < 0 := Int.not_lt.mpr (Int.natCast_nonneg _)
  have hzero : ¬((d.message.take 2048).length : Int) = 0 := by
    rw [Int.natCast_eq_zero, List.length_eq_zero_iff, List.take_eq_nil_iff]
    exact fun h => h.elim (by decide) hne
  have hread : DataGram.tryRead s.queue =
      ((((d.message.take 2048).length : Int), d.message.take 2048), d.saddr.take 128, d.saddr.length, rest) := by
    simp only [DataGram.tryRead, recvfrom, hqueue]
    rw [if_neg hneg, if_neg hzero]
  have hsaddr : (d.saddr.take 128).take d.saddr.length = d.saddr := by
    rw [List.take_of_length_le d.saddr_fits, List.take_length]
  unfold DataGram.onEvents
  rw [hread]
  exact (if_neg hzero).trans ((if_neg hneg).trans (by rw [hsaddr]))

theorem ready_cases (h : (dataGram poller epoll fd).step s .ready = some (s', es)) :
    ∃ d rest, s.queue = d :: rest ∧ s.Registered fd ∧
      ((d.message = [] ∧ s' = ⟨s.poller.cancle fd, Function.update s.epoll fd none, rest⟩ ∧
          es = [.received d, .onClose]) ∨
        (d.message ≠ [] ∧ s' = { s with queue := rest } ∧
          es = [.received d, .onRead (d.message.take 2048).length (d.message.take 2048) d.saddr])) := by
  cases hqueue : s.queue with
  | nil => simp [dataGram, hqueue] at h
  | cons d rest =>
    simp only [dataGram, hqueue] at h
    obtain ⟨hreg, h⟩ := Option.ite_none_right_eq_some.mp h
    refine ⟨d, rest, rfl, hreg, ?_⟩
    by_cases hempty : d.message = []
    · rw [onEvents_empty hqueue hempty] at h
      cases h
      exact .inl ⟨hempty, rfl, rfl⟩
    · rw [onEvents_reads hqueue hempty] at h
      cases h
      exact .inr ⟨hempty, rfl, rfl⟩

theorem not_registered_closed (p : RePoller Unit) (f : Int → Option Events) (fd : Int) (queue : List Datagram) :
    ¬(⟨p.cancle fd, Function.update f fd none, queue⟩ : Receiving).Registered fd := by
  intro h
  simpa using h.epoll

theorem registered_listen (p : RePoller Unit) (f : Int → Option Events) (fd : { fd : Int // 0 < fd }) :
    (DataGram.listenReadEvent fd p f).Registered fd := by
  have hfd := fd.2
  have hlisten : ¬(fd.1 = 0 ∨ fd.1 = -1) := by omega
  exact ⟨by simp [DataGram.listenReadEvent], by simp [DataGram.listenReadEvent, RePoller.setReadyCallback, hlisten]⟩

-- ---------------------------------------------------------------------------
-- Whole runs
-- ---------------------------------------------------------------------------

structure ReceivingOk (fd : Int) (tr : List DataGramEv) (s : Receiving) : Prop where
  arrivals : tr.filterMap DataGramEv.arrival = receptions tr ++ s.queue
  deliveries : tr.filterMap DataGramEv.delivery = (receptions tr).filterMap Datagram.cut
  closed : .onClose ∈ tr ↔ ∃ d ∈ receptions tr, d.message = []
  registered : s.Registered fd ↔ ∀ d ∈ receptions tr, d.message ≠ []

@[simp] theorem receptions_append (tr tr' : List DataGramEv) :
    receptions (tr ++ tr') = receptions tr ++ receptions tr' := List.filterMap_append

@[simp] theorem receptions_arrived (d : Datagram) : receptions [.arrived d] = [] := rfl

@[simp] theorem receptions_closes (d : Datagram) : receptions [.received d, .onClose] = [d] := rfl

@[simp] theorem receptions_reads (d : Datagram) (ret : Int) (message saddr : Bytes) :
    receptions [.received d, .onRead ret message saddr] = [d] := rfl

theorem ReceivingOk.arrives (h : ReceivingOk fd.1 tr s) (d : Datagram) :
    ReceivingOk fd.1 (tr ++ [.arrived d]) { s with queue := s.queue ++ [d] } where
  arrivals := by simp [h.arrivals, DataGramEv.arrival]
  deliveries := by simp [h.deliveries, DataGramEv.delivery]
  closed := by simp [h.closed]
  registered := by
    rw [receptions_append, receptions_arrived, List.append_nil, ← h.registered]
    exact ⟨fun h => ⟨h.1, h.2⟩, fun h => ⟨h.1, h.2⟩⟩

theorem ReceivingOk.arrivals_received (h : ReceivingOk fd.1 tr s) (hqueue : s.queue = d :: rest)
    (hes : receptions es = [d]) (hnone : es.filterMap DataGramEv.arrival = []) :
    (tr ++ es).filterMap DataGramEv.arrival = receptions (tr ++ es) ++ rest := by
  simp [h.arrivals, hqueue, hes, hnone]

theorem ReceivingOk.closes (h : ReceivingOk fd.1 tr s) (hqueue : s.queue = d :: rest) (hempty : d.message = []) :
    ReceivingOk fd.1 (tr ++ [.received d, .onClose])
      ⟨s.poller.cancle fd, Function.update s.epoll fd none, rest⟩ where
  arrivals := h.arrivals_received hqueue rfl rfl
  deliveries := by
    have hcut : d.cut = none := if_pos hempty
    rw [receptions_append, receptions_closes, List.filterMap_append, List.filterMap_append, h.deliveries,
      List.filterMap_cons_none hcut]
    rfl
  closed := by
    rw [receptions_append, receptions_closes]
    exact iff_of_true (by simp) ⟨d, by simp, hempty⟩
  registered := by
    rw [receptions_append, receptions_closes]
    exact iff_of_false (not_registered_closed _ _ _ _) fun h => h d (by simp) hempty

theorem ReceivingOk.reads (h : ReceivingOk fd.1 tr s) (hqueue : s.queue = d :: rest) (hreg : s.Registered fd)
    (hne : d.message ≠ []) :
    ReceivingOk fd.1 (tr ++ [.received d, .onRead (d.message.take 2048).length (d.message.take 2048) d.saddr])
      { s with queue := rest } where
  arrivals := h.arrivals_received hqueue rfl rfl
  deliveries := by
    have hcut : d.cut = some d.front := if_neg hne
    rw [receptions_append, receptions_reads, List.filterMap_append, List.filterMap_append, h.deliveries,
      List.filterMap_cons_some hcut]
    rfl
  closed := by
    rw [receptions_append, receptions_reads]
    simp [h.closed, or_and_right, exists_or, hne]
  registered := by
    rw [receptions_append, receptions_reads]
    refine iff_of_true ⟨hreg.1, hreg.2⟩ fun x hx => ?_
    rcases List.mem_append.mp hx with hx | hx
    · exact h.registered.mp hreg x hx
    · exact List.mem_singleton.mp hx ▸ hne

theorem receiving_ok (h : (dataGram poller epoll fd).Run tr s) : ReceivingOk fd tr s := by
  refine h.invariant ⟨rfl, rfl, by simp [receptions], iff_of_true (registered_listen ..) nofun⟩ ?_
  intro tr s a s' es _ ih _ hs
  cases a with
  | arrives d =>
    cases hs
    exact ih.arrives d
  | ready =>
    obtain ⟨d, rest, hqueue, hreg, ⟨hempty, rfl, rfl⟩ | ⟨hne, rfl, rfl⟩⟩ := ready_cases hs
    · exact ih.closes hqueue hempty
    · exact ih.reads hqueue hreg hne

theorem ready_enabled (hreg : s.Registered fd) (hqueue : s.queue ≠ []) :
    ((dataGram poller epoll fd).step s .ready).isSome := by
  obtain ⟨d, rest, hqueue⟩ := List.exists_cons_of_ne_nil hqueue
  simp [dataGram, hqueue, hreg]

theorem front_eq_whole_iff (d : Datagram) : d.front = d.whole ↔ d.message.length ≤ 2048 := by
  simp only [Datagram.front, Datagram.whole, Prod.mk.injEq, and_true]
  constructor
  · rintro ⟨-, htake⟩
    exact (List.take_eq_self_iff _).mp htake
  · intro hle
    rw [List.take_of_length_le hle]
    exact ⟨rfl, rfl⟩

theorem filterMap_cut {ds : List Datagram} (h : ∀ d ∈ ds, d.message ≠ []) :
    ds.filterMap Datagram.cut = ds.map Datagram.whole ↔ ∀ d ∈ ds, d.message.length ≤ 2048 := by
  have hfront : ds.filterMap Datagram.cut = ds.map Datagram.front := by
    rw [← List.filterMap_eq_map]
    exact List.filterMap_congr fun d hd => if_neg (h d hd)
  rw [hfront, List.map_inj_left]
  exact forall₂_congr fun d _ => front_eq_whole_iff d

/-- In every run the datagrams are delivered if and only if those that were read have from 1
to 2048 bytes. -/
theorem datagrams_delivered_iff (poller : RePoller Unit) (epoll : Int → Option Events)
    (fd : { fd : Int // 0 < fd }) (tr : List DataGramEv) (s : Receiving) (h : (dataGram poller epoll fd).Run tr s) :
    DeliversAll fd tr s ↔ ∀ d ∈ receptions tr, 1 ≤ d.message.length ∧ d.message.length ≤ 2048 := by
  have hok := receiving_ok h
  have hdelivered : tr.filterMap DataGramEv.delivery ++ s.queue.map Datagram.whole =
      (tr.filterMap DataGramEv.arrival).map Datagram.whole ↔
      (receptions tr).filterMap Datagram.cut = (receptions tr).map Datagram.whole := by
    rw [hok.arrivals, hok.deliveries, List.map_append, List.append_left_inj]
  constructor
  · intro hall d hd
    have hne : ∀ d ∈ receptions tr, d.message ≠ [] := hok.registered.mp hall.registered
    exact ⟨List.length_pos_iff.mpr (hne d hd), (filterMap_cut hne).mp (hdelivered.mp hall.delivered) d hd⟩
  · intro hfit
    have hne : ∀ d ∈ receptions tr, d.message ≠ [] := fun d hd => List.length_pos_iff.mp (hfit d hd).1
    refine ⟨hdelivered.mpr ((filterMap_cut hne).mpr fun d hd => (hfit d hd).2), fun hclose => ?_,
      hok.registered.mpr hne⟩
    obtain ⟨d, hd, hempty⟩ := hok.closed.mp hclose
    exact hne d hd hempty

end

def dataGramFive : Machine Receiving DataGramAct DataGramEv := dataGram ⟨∅, ∅, false⟩ (fun _ => none) ⟨5, by decide⟩

def datagram (message : Bytes) (h : message.length ≤ 65507) : Datagram := ⟨message, [2, 0, 7], h, by decide⟩

theorem two_datagrams_delivered : ∃ tr s, dataGramFive.Run tr s ∧
    .onRead 2 [104, 105] [2, 0, 7] ∈ tr ∧ DeliversAll 5 tr s := by
  have hr : (dataGramFive.replay dataGramFive.init [.arrives (datagram [104, 105] (by decide)),
    .arrives (datagram [33] (by decide)), .ready]).isSome := by decide
  have hrun := Machine.steps_of_replay (Option.some_get hr).symm
  refine ⟨_, _, hrun, by decide, (datagrams_delivered_iff _ _ _ _ _ hrun).mpr ?_⟩
  decide

theorem empty_datagram_closes : ∃ tr s, dataGramFive.Run tr s ∧
    tr = [.arrived (datagram [] (by decide)), .received (datagram [] (by decide)), .onClose] ∧
    ¬s.Registered 5 ∧ ¬DeliversAll 5 tr s := by
  have hr : (dataGramFive.replay dataGramFive.init [.arrives (datagram [] (by decide)), .ready]).isSome := by decide
  have hrun := Machine.steps_of_replay (Option.some_get hr).symm
  exact ⟨_, _, hrun, rfl, by decide, fun h => h.opened (by decide)⟩

end Andren.Network
