import Andren.Machine.Handles

/-!
# Sockets and their descriptors

A `Socket` owns the descriptor whose number it holds: it takes it over from the
kernel or from another `Socket`, and closes it. The kernel gives out the number
of a closed descriptor again. What a number stands for is in the model only;
the code sees the number.

`closeAndNoClear` leaves the closed number in the object, and every operation
that closes decides by the number. As long as no object closes a number that
`closeAndNoClear` left in it, each descriptor is closed at most once
(`socket_closes_once`).
-/

namespace Andren.Base

open Machines

structure Socket where
  m_fd : Int
  stands : Standing
  deriving DecidableEq

/-- The sockets in being, and the descriptors that no socket is to close. -/
structure SocketSystem where
  kernel : HandleTable Int
  loose : List (Int × Nat)
  sockets : List Socket

inductive SocketAct
  /-- The kernel gives a descriptor to somebody: a result of `accept`, or another
  connection. -/
  | opens (fd : Int)
  /-- Somebody closes a descriptor that no socket has. -/
  | closes (j : Nat)
  /-- `Socket()`, and `Socket(fd)` of a failed call. -/
  | construct
  /-- `Socket(domain, type, protocol)`, for which `::socket` returned `fd`. -/
  | socket (fd : Int)
  /-- `Socket(fd)` of a descriptor that no socket has. -/
  | adopt (j : Nat)
  | moveConstruct (i : Nat)
  | moveAssign (i j : Nat)
  | managedFD (i j : Nat)
  | close (i : Nat)
  | closeAndNoClear (i : Nat)
  | closeAndReturn (i : Nat)
  | destroy (i : Nat)

inductive SocketEv
  /-- A socket calls `::close(fd)`, and closes the descriptor `hit`. -/
  | closed (fd : Int) (stands : Standing) (hit : Option Nat)
  | closedLoose (k : Nat)
  deriving DecidableEq

namespace Socket

def new : Socket := ⟨-1, .nothing⟩

def valid (x : Socket) : Bool := x.m_fd > 0

def owns (x : Socket) : List (Int × Nat) := x.stands.owns x.m_fd

end Socket

namespace SocketSystem

def sysClose (s : SocketSystem) (x : Socket) : SocketSystem × List SocketEv :=
  ({ s with kernel := s.kernel.release x.m_fd }, [.closed x.m_fd x.stands (s.kernel.inUse x.m_fd)])

/-- `~Socket`. The descriptor 0 is not closed, and nobody has it then. -/
def destructor (s : SocketSystem) (x : Socket) : SocketSystem × List SocketEv :=
  if x.valid then s.sysClose x else ({ s with loose := x.owns ++ s.loose }, [])

/-- `fd > 0` is tested by the constructor, so that the descriptor 0 gets lost. -/
def socket (s : SocketSystem) (fd : Int) (k : Nat) : SocketSystem :=
  if fd > 0 then { s with sockets := s.sockets ++ [⟨fd, .live k⟩] }
  else { s with sockets := s.sockets ++ [.new], loose := (fd, k) :: s.loose }

def close (s : SocketSystem) (i : Nat) (x : Socket) : SocketSystem × List SocketEv :=
  let (s, es) := s.sysClose x
  ({ s with sockets := s.sockets.set i .new }, es)

def closeAndNoClear (s : SocketSystem) (i : Nat) (x : Socket) : SocketSystem × List SocketEv :=
  let (s, es) := s.sysClose x
  ({ s with sockets := s.sockets.set i ⟨x.m_fd, x.stands.released⟩ }, es)

/-- Of a socket `x` that is not valid. It refuses a number that is not positive. -/
def managedFD (s : SocketSystem) (i j : Nat) (x : Socket) (p : Int × Nat) : SocketSystem :=
  if p.1 ≤ 0 then s
  else { s with sockets := s.sockets.set i ⟨p.1, .live p.2⟩, loose := x.owns ++ s.loose.eraseIdx j }

end SocketSystem

/-- The program and the kernel. `managedFD` asks for a socket that is not valid. -/
def socketSystem : Machine SocketSystem SocketAct SocketEv where
  init := ⟨.empty, [], []⟩
  step s
    | .opens fd => if fd < 0 then none else do
      let (kernel, k) ← s.kernel.give fd
      pure ({ s with kernel := kernel, loose := (fd, k) :: s.loose }, [])
    | .closes j => do
      let p ← s.loose[j]?
      pure ({ s with kernel := s.kernel.release p.1, loose := s.loose.eraseIdx j }, [.closedLoose p.2])
    | .construct => some ({ s with sockets := s.sockets ++ [.new] }, [])
    | .socket fd => if fd < 0 then none else do
      let (kernel, k) ← s.kernel.give fd
      pure ({ s with kernel := kernel }.socket fd k, [])
    | .adopt j => do
      let p ← s.loose[j]?
      pure ({ s with loose := s.loose.eraseIdx j, sockets := s.sockets ++ [⟨p.1, .live p.2⟩] }, [])
    | .moveConstruct i => do
      let x ← s.sockets[i]?
      pure ({ s with sockets := s.sockets.set i .new ++ [x] }, [])
    | .moveAssign i j => do
      let x ← s.sockets[i]?
      let y ← s.sockets[j]?
      -- the destructor leaves the number in place, where an assignment to itself finds it
      let (s, es) := s.destructor x
      pure ({ s with sockets := (s.sockets.set i y).set j .new }, es)
    | .managedFD i j => do
      let x ← s.sockets[i]?
      let p ← s.loose[j]?
      if x.valid then none else pure (s.managedFD i j x p, [])
    | .close i => do
      let x ← s.sockets[i]?
      pure (s.close i x)
    | .closeAndNoClear i => do
      let x ← s.sockets[i]?
      pure (s.closeAndNoClear i x)
    | .closeAndReturn i => do
      let x ← s.sockets[i]?
      pure (s.close i x)
    | .destroy i => do
      let x ← s.sockets[i]?
      let (s, es) := s.destructor x
      pure ({ s with sockets := s.sockets.eraseIdx i }, es)

/-- No step closes a number that `closeAndNoClear` left in a socket. -/
def SocketSystem.careful (s : SocketSystem) : SocketAct → Bool
  | .close i | .closeAndNoClear i | .closeAndReturn i => s.sockets[i]?.all fun x => !x.stands.isStale
  | .destroy i | .moveAssign i _ => s.sockets[i]?.all fun x => !(x.valid && x.stands.isStale)
  | _ => true

-- ---------------------------------------------------------------------------
-- The account
-- ---------------------------------------------------------------------------

/-- The descriptors that an event closes; a call on a stale number counts for
the descriptor that it was given for. -/
def SocketEv.closes : SocketEv → List Nat
  | .closed _ stands _ => stands.resource.toList
  | .closedLoose k => [k]

/-- Each descriptor is closed at most once, and a socket closes none but its own. -/
structure ClosedOnce (tr : List SocketEv) : Prop where
  once : ∀ k, (tr.flatMap SocketEv.closes).count k ≤ 1
  own : ∀ fd stands hit, .closed fd stands hit ∈ tr → hit = stands.resource

def SocketSystem.held (s : SocketSystem) : List (Int × Nat) := s.loose ++ s.sockets.flatMap Socket.owns

def Socket.Ok (x : Socket) : Prop := x.stands = .nothing → x.m_fd = -1

/-- The kernel does not give out negative numbers, and a socket that has a
number got it from the kernel. -/
structure SocketsOk (s : SocketSystem) : Prop where
  minus : ∀ fd, fd < 0 → s.kernel.inUse fd = none
  sockets : ∀ x ∈ s.sockets, x.Ok

section

variable {s s' : SocketSystem} {x y : Socket}

theorem ok_new : Socket.new.Ok := fun _ => rfl

theorem ok_live (fd : Int) (k : Nat) : (⟨fd, .live k⟩ : Socket).Ok := nofun

theorem Socket.Ok.released (h : x.Ok) : (⟨x.m_fd, x.stands.released⟩ : Socket).Ok := by
  intro hnothing
  refine h ?_
  cases hx : x.stands <;> simp [hx, Standing.released] at hnothing
  rfl

theorem SocketsOk.free (h : SocketsOk s) (hx : x ∈ s.sockets) (hnothing : x.stands = .nothing) :
    s.kernel.inUse x.m_fd = none := by
  rw [h.sockets x hx hnothing]
  exact h.minus _ (by decide)

-- ---------------------------------------------------------------------------
-- What a step closes
-- ---------------------------------------------------------------------------

theorem closing_step (h : SocketsOk s) (hx : x ∈ s.sockets) (hstale : x.stands.isStale = false)
    (hheld : s.held.Perm (x.owns ++ held')) :
    LedgerStep s.kernel s.held (s.kernel.release x.m_fd) held' x.stands.resource.toList :=
  ledgerStep_close (h.free hx) hstale hheld

theorem destructor_step (h : SocketsOk s) (hx : x ∈ s.sockets)
    (hstale : (x.valid && x.stands.isStale) = false)
    (hrest : (x.owns ++ rest).Perm (s.sockets.flatMap Socket.owns)) :
    LedgerStep s.kernel s.held (s.destructor x).1.kernel ((s.destructor x).1.loose ++ rest)
      ((s.destructor x).2.flatMap SocketEv.closes) := by
  unfold SocketSystem.destructor
  split
  · rename_i hvalid
    rw [hvalid, Bool.true_and] at hstale
    simp only [SocketSystem.sysClose]
    rw [List.flatMap_singleton]
    refine closing_step h hx hstale ?_
    refine (hrest.symm.append_left _).trans ?_
    rw [← List.append_assoc, ← List.append_assoc]
    exact List.perm_append_comm.append_right _
  · refine .pass ?_
    rw [List.append_assoc, SocketSystem.held]
    refine List.perm_append_comm.trans ?_
    rw [List.append_assoc]
    exact (List.perm_append_comm.trans hrest).append_left _

theorem destructor_sockets : (s.destructor x).1.sockets = s.sockets := by
  unfold SocketSystem.destructor
  split <;> rfl

structure StepOk (s s' : SocketSystem) (es : List SocketEv) : Prop where
  ok : SocketsOk s'
  ledger : LedgerStep s.kernel s.held s'.kernel s'.held (es.flatMap SocketEv.closes)
  own : ∀ fd stands hit, .closed fd stands hit ∈ es →
    ∃ x ∈ s.sockets, stands = x.stands ∧ stands.isStale = false ∧ hit = s.kernel.inUse x.m_fd

theorem stepOk_quiet (hok : SocketsOk s') (hes : ∀ fd stands hit, .closed fd stands hit ∉ es)
    (hledger : LedgerStep s.kernel s.held s'.kernel s'.held (es.flatMap SocketEv.closes)) : StepOk s s' es :=
  ⟨hok, hledger, fun _ _ _ hmem => absurd hmem (hes _ _ _)⟩

theorem minus_give (h : SocketsOk s) (hfd : ¬fd < 0) (hgive : s.kernel.give fd = some (kernel, k)) :
    ∀ fd', fd' < 0 → kernel.inUse fd' = none := by
  intro fd' hneg
  rw [HandleTable.give_other hgive (by omega)]
  exact h.minus fd' hneg

theorem stepOk_close (h : SocketsOk s) (hx : s.sockets[i]? = some x) (hstale : x.stands.isStale = false)
    (hy : y.Ok) (hyowns : y.owns = []) :
    StepOk s { s with kernel := s.kernel.release x.m_fd, sockets := s.sockets.set i y }
      [.closed x.m_fd x.stands (s.kernel.inUse x.m_fd)] := by
  have hmem := List.mem_of_getElem? hx
  refine ⟨⟨fun fd hfd => HandleTable.release_free (h.minus fd hfd) _, forall_set h.sockets i hy⟩, ?_, ?_⟩
  · rw [List.flatMap_singleton]
    refine closing_step h hmem hstale ?_
    refine ((flatMap_take Socket.owns hx hyowns).append_left _).trans ?_
    rw [SocketSystem.held, ← List.append_assoc, ← List.append_assoc]
    exact List.perm_append_comm.append_right _
  · rintro fd stands hit (_ | ⟨_, ⟨⟩⟩)
    exact ⟨x, hmem, rfl, hstale, rfl⟩

theorem stepOk_destructor (h : SocketsOk s) (hx : x ∈ s.sockets)
    (hstale : (x.valid && x.stands.isStale) = false) (hsockets : ∀ y ∈ sockets, y.Ok)
    (hrest : (x.owns ++ sockets.flatMap Socket.owns).Perm (s.sockets.flatMap Socket.owns)) :
    StepOk s { (s.destructor x).1 with sockets := sockets } (s.destructor x).2 := by
  refine ⟨⟨?_, hsockets⟩, destructor_step h hx hstale hrest, ?_⟩
  · intro fd hfd
    unfold SocketSystem.destructor
    split
    · exact HandleTable.release_free (h.minus fd hfd) _
    · exact h.minus fd hfd
  · intro fd stands hit hmem
    unfold SocketSystem.destructor at hmem
    split at hmem
    · rename_i hvalid
      rw [hvalid, Bool.true_and] at hstale
      rcases hmem with _ | ⟨_, ⟨⟩⟩
      exact ⟨x, hx, rfl, hstale, rfl⟩
    · cases hmem

theorem socketSystem_step (h : SocketsOk s) (hcareful : s.careful a = true)
    (hs : socketSystem.step s a = some (s', es)) : StepOk s s' es := by
  cases a with
  | opens fd =>
    obtain ⟨hfd, hs⟩ := Option.ite_none_left_eq_some.mp hs
    obtain ⟨⟨kernel, k⟩, hgive, hs⟩ := Option.bind_eq_some_iff.mp hs
    cases hs
    exact stepOk_quiet ⟨minus_give h hfd hgive, h.sockets⟩ nofun (.give hgive (.refl _))
  | closes j =>
    obtain ⟨p, hp, hs⟩ := Option.bind_eq_some_iff.mp hs
    cases hs
    refine stepOk_quiet ⟨fun fd hfd => HandleTable.release_free (h.minus fd hfd) _, h.sockets⟩ (by simp) ?_
    exact .release ((perm_eraseIdx hp).append_right _)
  | construct =>
    cases hs
    refine stepOk_quiet ⟨h.minus, forall_concat h.sockets ok_new⟩ nofun (.pass ?_)
    rw [SocketSystem.held, List.flatMap_append]
    exact .of_eq (congrArg _ (List.append_nil _))
  | socket fd =>
    obtain ⟨hfd, hs⟩ := Option.ite_none_left_eq_some.mp hs
    obtain ⟨⟨kernel, k⟩, hgive, hs⟩ := Option.bind_eq_some_iff.mp hs
    cases hs
    unfold SocketSystem.socket
    split
    · refine stepOk_quiet ⟨minus_give h hfd hgive, forall_concat h.sockets (ok_live fd k)⟩ nofun
        (.give hgive ?_)
      rw [SocketSystem.held, List.flatMap_append, ← List.append_assoc]
      exact List.perm_append_singleton _ _
    · refine stepOk_quiet ⟨minus_give h hfd hgive, forall_concat h.sockets ok_new⟩ nofun (.give hgive ?_)
      rw [SocketSystem.held, List.flatMap_append]
      exact .of_eq (congrArg _ (List.append_nil _))
  | adopt j =>
    obtain ⟨p, hp, hs⟩ := Option.bind_eq_some_iff.mp hs
    cases hs
    refine stepOk_quiet ⟨h.minus, forall_concat h.sockets (ok_live p.1 p.2)⟩ nofun (.pass ?_)
    rw [SocketSystem.held, List.flatMap_append, ← List.append_assoc]
    exact (List.perm_append_singleton p _).trans ((perm_eraseIdx hp).symm.append_right _)
  | moveConstruct i =>
    obtain ⟨x, hx, hs⟩ := Option.bind_eq_some_iff.mp hs
    cases hs
    have hok := forall_concat (forall_set h.sockets i ok_new) (h.sockets x (List.mem_of_getElem? hx))
    refine stepOk_quiet ⟨h.minus, hok⟩ nofun (.pass ?_)
    rw [SocketSystem.held, List.flatMap_append, List.flatMap_singleton]
    exact (List.perm_append_comm.trans (flatMap_take Socket.owns hx rfl).symm).append_left _
  | moveAssign i j =>
    obtain ⟨x, hx, hs⟩ := Option.bind_eq_some_iff.mp hs
    obtain ⟨y, hy, hs⟩ := Option.bind_eq_some_iff.mp hs
    cases hs
    rw [SocketSystem.careful, hx, Option.all_some, Bool.not_eq_true'] at hcareful
    have hok := forall_set (forall_set h.sockets i (h.sockets y (List.mem_of_getElem? hy))) j ok_new
    have hstep := stepOk_destructor h (List.mem_of_getElem? hx) hcareful hok
      (flatMap_move Socket.owns hx hy rfl)
    rwa [show s.sockets = (s.destructor x).1.sockets from destructor_sockets.symm] at hstep
  | managedFD i j =>
    obtain ⟨x, hx, hs⟩ := Option.bind_eq_some_iff.mp hs
    obtain ⟨p, hp, hs⟩ := Option.bind_eq_some_iff.mp hs
    obtain ⟨-, hs⟩ := Option.ite_none_left_eq_some.mp hs
    cases hs
    unfold SocketSystem.managedFD
    split
    · exact stepOk_quiet h nofun (.pass (.refl _))
    · refine stepOk_quiet ⟨h.minus, forall_set h.sockets i (ok_live p.1 p.2)⟩ nofun (.pass ?_)
      have hset := flatMap_set Socket.owns hx ⟨p.1, .live p.2⟩
      have hsockets := flatMap_eraseIdx Socket.owns hx
      have hloose : s.loose.Perm ([p] ++ s.loose.eraseIdx j) := perm_eraseIdx hp
      refine List.perm_iff_count.mpr fun q => ?_
      have hset := hset.count_eq q
      have hsockets := hsockets.count_eq q
      have hloose := hloose.count_eq q
      simp only [List.count_append] at hset hsockets hloose
      have howns : List.count q (⟨p.1, .live p.2⟩ : Socket).owns = List.count q [p] := rfl
      simp only [SocketSystem.held, List.count_append]
      omega
  | close i | closeAndReturn i =>
    obtain ⟨x, hx, hs⟩ := Option.bind_eq_some_iff.mp hs
    cases hs
    rw [SocketSystem.careful, hx, Option.all_some, Bool.not_eq_true'] at hcareful
    exact stepOk_close h hx hcareful ok_new rfl
  | closeAndNoClear i =>
    obtain ⟨x, hx, hs⟩ := Option.bind_eq_some_iff.mp hs
    cases hs
    rw [SocketSystem.careful, hx, Option.all_some, Bool.not_eq_true'] at hcareful
    refine stepOk_close h hx hcareful (h.sockets x (List.mem_of_getElem? hx)).released ?_
    cases hx' : x.stands <;> rfl
  | destroy i =>
    obtain ⟨x, hx, hs⟩ := Option.bind_eq_some_iff.mp hs
    cases hs
    rw [SocketSystem.careful, hx, Option.all_some, Bool.not_eq_true'] at hcareful
    have hstep := stepOk_destructor h (List.mem_of_getElem? hx) hcareful (forall_eraseIdx h.sockets i)
      (flatMap_eraseIdx Socket.owns hx).symm
    rwa [show s.sockets = (s.destructor x).1.sockets from destructor_sockets.symm] at hstep

-- ---------------------------------------------------------------------------
-- Runs
-- ---------------------------------------------------------------------------

theorem socketSystem_ledger (h : socketSystem.RunIf (fun s a => s.careful a = true) tr s) :
    SocketsOk s ∧ Ledger s.kernel (tr.flatMap SocketEv.closes) s.held := by
  refine ledger_run (I := SocketsOk) rfl rfl ⟨fun _ _ => rfl, fun _ hx => absurd hx List.not_mem_nil⟩ ?_ h
  intro s a s' es hok hcareful hs
  have hstep := socketSystem_step hok hcareful hs
  exact ⟨hstep.ok, hstep.ledger⟩

theorem socket_closes_once (h : socketSystem.RunIf (fun s a => s.careful a = true) tr s) : ClosedOnce tr := by
  refine ⟨fun k => ?_, ?_⟩
  · have hcount := (socketSystem_ledger h).2.count k
    split at hcount <;> omega
  · refine h.invariant (I := fun tr _ => ∀ fd stands hit, .closed fd stands hit ∈ tr → hit = stands.resource)
      nofun ?_
    intro tr s a s' es hr hown hcareful hs fd stands hit hmem
    obtain ⟨hok, hledger⟩ := socketSystem_ledger hr
    rcases List.mem_append.mp hmem with hmem | hmem
    · exact hown fd stands hit hmem
    · obtain ⟨x, hx, rfl, hstale, rfl⟩ := (socketSystem_step hok hcareful hs).own fd stands hit hmem
      exact hledger.inUse_own (hok.free hx) hstale fun p hp =>
        List.mem_append_right _ (List.mem_flatMap_of_mem hx hp)

theorem socket_closes_once_moved : ∃ tr s,
    socketSystem.RunIf (fun s a => s.careful a = true) tr s ∧
      tr = [.closed 5 (.live 0) (some 0)] ∧ s.kernel.inUse 5 = some 1 ∧ ClosedOnce tr := by
  have hr : ((socketSystem.only fun s a => s.careful a = true).replay ⟨.empty, [], []⟩ [.opens 5, .adopt 0,
      .moveConstruct 0, .destroy 0, .close 0, .opens 5, .destroy 0]).isSome := rfl
  have hrun := Machine.steps_of_replay_only (Option.some_get hr).symm
  exact ⟨_, _, hrun, rfl, rfl, socket_closes_once hrun⟩

/-- The tasks of `SockStream::aclose`, `DataGram::aclose` and
`SSLStream::real_close` call `closeAndNoClear`; the destructor of the stream
closes again, when the number is that of another connection. -/
theorem socket_closes_another : ∃ tr s, socketSystem.Run tr s ∧
    tr = [.closed 5 (.live 0) (some 0), .closed 5 (.stale 0) (some 1)] ∧ ¬ClosedOnce tr := by
  have hr : (socketSystem.replay ⟨.empty, [], []⟩ [.opens 5, .adopt 0, .moveConstruct 0, .destroy 0,
      .closeAndNoClear 0, .opens 5, .destroy 0]).isSome := rfl
  refine ⟨_, _, Machine.steps_of_replay (Option.some_get hr).symm, rfl, fun honce => ?_⟩
  cases honce.own 5 (.stale 0) (some 1) (by decide)

end

end Andren.Base
