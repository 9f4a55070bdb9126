import Andren.Machine.Handles
import Andren.Network.IoService

/-!
# Files of the io_uring service

While a request is on its way, the descriptor of an `io_file` is in the request.
The callback of the request puts it into an `io_file` of its own for the user's
callback, and the destructor of that one closes it. A temporary is an `io_file`
like the others here, and it may live longer than in the code.

The callback of `async_close` does the same with the number that the kernel has
just closed. As long as each such number is taken out of the temporary and not
closed again, every file is closed once (`io_file_closes_once`).
-/

namespace Andren.Network

open Machines

structure IoFile where
  m_fd : Int
  stands : Standing
  deriving DecidableEq

structure FileRequest where
  req : Req
  fd : Int
  stands : Standing
  cqe_res : Option Int

/-- `outside` are the descriptors that no `io_file` and no request has. -/
structure FileSystem where
  kernel : HandleTable Int
  outside : List (Int × Nat)
  files : List IoFile
  requests : List FileRequest

inductive FileAct
  | opens (fd : Int)
  | closes (j : Nat)
  | construct
  | async_open
  | async_write (i : Nat)
  | async_read (i : Nat)
  | async_close (i : Nat)
  | moveConstruct (i : Nat)
  | take_handle (i : Nat)
  | destroy (i : Nat)
  /-- The kernel carries out a request. -/
  | perform (n : Nat) (res : Int)
  /-- The service calls `onEvents` of a request. -/
  | complete (n : Nat)

inductive FileEv
  | opened (fd : Int) (k : Nat)
  /-- A `CLOSE` request or a destructor closes the descriptor `hit`. -/
  | closed (fd : Int) (stands : Standing) (hit : Option Nat)
  | taken (fd : Int) (stands : Standing)
  | closedOutside (k : Nat)
  deriving DecidableEq

def IoFile.new : IoFile := ⟨-1, .nothing⟩

def IoFile.owns (x : IoFile) : List (Int × Nat) := x.stands.owns x.m_fd

/-- The number that the callback of the request passes to `resume`. -/
def FileRequest.resumed (r : FileRequest) : Int :=
  match r.req with
  | .OPEN => r.cqe_res.getD (-1)
  | _ => r.fd

def FileRequest.owns (r : FileRequest) : List (Int × Nat) := r.stands.owns r.resumed

def EBADF : Int := 9

namespace FileSystem

def async_open (s : FileSystem) : FileSystem :=
  { s with requests := s.requests ++ [⟨.OPEN, -1, .nothing, none⟩] }

def async (s : FileSystem) (req : Req) (i : Nat) (x : IoFile) : FileSystem :=
  { s with files := s.files.set i .new, requests := s.requests ++ [⟨req, x.m_fd, x.stands, none⟩] }

def destructor (s : FileSystem) (i : Nat) (x : IoFile) : FileSystem × List FileEv :=
  if x.m_fd < 0 then ({ s with files := s.files.eraseIdx i }, [])
  else ({ s with kernel := s.kernel.release x.m_fd, files := s.files.eraseIdx i },
    [.closed x.m_fd x.stands (s.kernel.inUse x.m_fd)])

/-- A negative result is an error. A `CLOSE` that fails has released the descriptor all the same, unless there
was none. -/
def perform (s : FileSystem) (n : Nat) (r : FileRequest) (res : Int) : Option (FileSystem × List FileEv) :=
  let done := { r with cqe_res := some res }
  match r.req with
  | .OPEN =>
    if res < 0 then some ({ s with requests := s.requests.set n done }, [])
    else do
      let (kernel, k) ← s.kernel.give res
      pure ({ s with kernel := kernel, requests := s.requests.set n { done with stands := .live k } },
        [.opened res k])
  | .CLOSE =>
    if res = -EBADF then some ({ s with requests := s.requests.set n done }, [])
    else some
      ({ s with
          kernel := s.kernel.release r.fd
          requests := s.requests.set n { done with stands := r.stands.released } },
        [.closed r.fd r.stands (s.kernel.inUse r.fd)])
  | _ => some ({ s with requests := s.requests.set n done }, [])

def complete (s : FileSystem) (n : Nat) (r : FileRequest) : FileSystem :=
  { s with files := s.files ++ [⟨r.resumed, r.stands⟩], requests := s.requests.eraseIdx n }

end FileSystem

def ioFiles : Machine FileSystem FileAct FileEv where
  init := ⟨.empty, [], [], []⟩
  step s
    | .opens fd => if fd < 0 then none else do
      let (kernel, k) ← s.kernel.give fd
      pure ({ s with kernel := kernel, outside := (fd, k) :: s.outside }, [])
    | .closes j => do
      let p ← s.outside[j]?
      pure ({ s with kernel := s.kernel.release p.1, outside := s.outside.eraseIdx j }, [.closedOutside p.2])
    | .construct => some ({ s with files := s.files ++ [.new] }, [])
    | .async_open => some (s.async_open, [])
    | .async_write i => do
      let x ← s.files[i]?
      pure (s.async .WRITE i x, [])
    | .async_read i => do
      let x ← s.files[i]?
      pure (s.async .READ i x, [])
    | .async_close i => do
      let x ← s.files[i]?
      pure (s.async .CLOSE i x, [])
    | .moveConstruct i => do
      let x ← s.files[i]?
      pure ({ s with files := s.files.set i .new ++ [x] }, [])
    | .take_handle i => do
      let x ← s.files[i]?
      pure ({ s with files := s.files.set i .new, outside := x.owns ++ s.outside }, [.taken x.m_fd x.stands])
    | .destroy i => do
      let x ← s.files[i]?
      pure (s.destructor i x)
    | .perform n res => do
      let r ← s.requests[n]?
      if r.cqe_res.isSome then none else s.perform n r res
    | .complete n => do
      let r ← s.requests[n]?
      if r.cqe_res.isSome then pure (s.complete n r, []) else none

/-- No number that a `CLOSE` request has closed is closed again. -/
def FileSystem.careful (s : FileSystem) : FileAct → Bool
  | .destroy i | .async_close i => s.files[i]?.all fun x => !x.stands.isStale
  | _ => true

-- ---------------------------------------------------------------------------
-- The account
-- ---------------------------------------------------------------------------

/-- A call on a stale number counts for the descriptor that it was given for. -/
def FileEv.closes : FileEv → List Nat
  | .closed _ stands _ => stands.resource.toList
  | .closedOutside k => [k]
  | .opened .. | .taken .. => []

/-- Each file is closed at most once, and at the end, when no `io_file` and no
request is left, exactly once unless it was handed out. -/
structure FilesClosed (tr : List FileEv) (s : FileSystem) : Prop where
  once : ∀ k, (tr.flatMap FileEv.closes).count k ≤ 1
  own : ∀ fd stands hit, .closed fd stands hit ∈ tr → hit = stands.resource
  all : s.files = [] → s.requests = [] → ∀ fd k, .opened fd k ∈ tr → (∀ fd', .taken fd' (.live k) ∉ tr) →
    (tr.flatMap FileEv.closes).count k = 1

def FileSystem.held (s : FileSystem) : List (Int × Nat) :=
  s.outside ++ (s.files.flatMap IoFile.owns ++ s.requests.flatMap FileRequest.owns)

def Fits (fd : Int) (stands : Standing) : Prop := stands = .nothing ↔ fd < 0

/-- Of a request that is not done; `async_open` has no descriptor to pass on. -/
structure FileRequest.Waiting (r : FileRequest) : Prop where
  opening : r.req = .OPEN → r.stands = .nothing
  closing : r.req = .CLOSE → r.stands.isStale = false

/-- The kernel does not give out negative numbers. -/
structure FilesOk (s : FileSystem) : Prop where
  minus : ∀ fd, fd < 0 → s.kernel.inUse fd = none
  files : ∀ x ∈ s.files, Fits x.m_fd x.stands
  requests : ∀ r ∈ s.requests, Fits r.resumed r.stands
  waiting : ∀ r ∈ s.requests, r.cqe_res = none → r.Waiting

structure FileStep (s s' : FileSystem) (es : List FileEv) : Prop where
  ok : FilesOk s'
  ledger : LedgerStep s.kernel s.held s'.kernel s'.held (es.flatMap FileEv.closes)
  own : ∀ fd stands hit, .closed fd stands hit ∈ es → Fits fd stands ∧ stands.isStale = false ∧
    (∀ p ∈ stands.owns fd, p ∈ s.held) ∧ hit = s.kernel.inUse fd

section

variable {s s' : FileSystem} {x : IoFile} {r : FileRequest}

theorem fits_new : Fits IoFile.new.m_fd IoFile.new.stands := ⟨fun _ => by decide, fun _ => rfl⟩

theorem fits_live (hfd : ¬fd < 0) : Fits fd (.live k) := ⟨nofun, fun h => absurd h hfd⟩

theorem Fits.released (h : Fits fd stands) : Fits fd stands.released := by
  cases stands with
  | nothing => exact h
  | live | stale => exact ⟨nofun, fun hfd => nomatch h.mpr hfd⟩

theorem FilesOk.free (h : FilesOk s) (hfits : Fits fd stands) (hnothing : stands = .nothing) :
    s.kernel.inUse fd = none := h.minus fd (hfits.mp hnothing)

theorem FilesOk.minus_give (h : FilesOk s) (hfd : ¬fd < 0) (hgive : s.kernel.give fd = some (kernel, k)) :
    ∀ fd', fd' < 0 → kernel.inUse fd' = none := by
  intro fd' hneg
  rw [HandleTable.give_other hgive (by omega)]
  exact h.minus fd' hneg

theorem fileStep_quiet (hok : FilesOk s') (hes : ∀ fd stands hit, .closed fd stands hit ∉ es)
    (hledger : LedgerStep s.kernel s.held s'.kernel s'.held (es.flatMap FileEv.closes)) : FileStep s s' es :=
  ⟨hok, hledger, fun _ _ _ hmem => absurd hmem (hes _ _ _)⟩

theorem fileStep_close (hok : FilesOk s') (hfree : FilesOk s) (hkernel : s'.kernel = s.kernel.release fd)
    (hfits : Fits fd stands) (hstale : stands.isStale = false) (hheld : s.held.Perm (stands.owns fd ++ s'.held)) :
    FileStep s s' [.closed fd stands (s.kernel.inUse fd)] := by
  refine ⟨hok, ?_, ?_⟩
  · rw [hkernel, List.flatMap_singleton]
    exact ledgerStep_close (hfree.free hfits) hstale hheld
  · rintro _ _ _ (_ | ⟨_, ⟨⟩⟩)
    exact ⟨hfits, hstale, fun p hp => hheld.mem_iff.mpr (List.mem_append_left _ hp), rfl⟩

-- ---------------------------------------------------------------------------
-- The operations
-- ---------------------------------------------------------------------------

theorem async_step (h : FilesOk s) (hx : s.files[i]? = some x) (hopen : req ≠ .OPEN)
    (hclose : req = .CLOSE → x.stands.isStale = false) : FileStep s (s.async req i x) [] := by
  have hresumed : (⟨req, x.m_fd, x.stands, none⟩ : FileRequest).resumed = x.m_fd := by
    unfold FileRequest.resumed
    split
    · contradiction
    · rfl
  have hfits := h.files x (List.mem_of_getElem? hx)
  refine fileStep_quiet ⟨h.minus, forall_set h.files i fits_new, ?_, ?_⟩ nofun (.pass ?_)
  · refine forall_concat h.requests ?_
    rw [hresumed]
    exact hfits
  · exact forall_concat h.waiting fun _ => ⟨fun heq => absurd heq hopen, hclose⟩
  · refine List.perm_iff_count.mpr fun q => ?_
    have hfiles := (flatMap_take IoFile.owns hx (z := .new) rfl).count_eq q
    have howns : (⟨req, x.m_fd, x.stands, none⟩ : FileRequest).owns = x.owns := by
      rw [FileRequest.owns, hresumed, IoFile.owns]
    simp only [FileSystem.held, FileSystem.async, List.flatMap_append, List.flatMap_singleton, howns,
      List.count_append] at hfiles ⊢
    omega

theorem destructor_fileStep (h : FilesOk s) (hx : s.files[i]? = some x) (hstale : x.stands.isStale = false) :
    FileStep s (s.destructor i x).1 (s.destructor i x).2 := by
  have hfits := h.files x (List.mem_of_getElem? hx)
  have hfiles := flatMap_eraseIdx IoFile.owns hx
  have hrest : s.held.Perm (x.owns ++ FileSystem.held { s with files := s.files.eraseIdx i }) := by
    refine List.perm_iff_count.mpr fun q => ?_
    have hfiles := hfiles.count_eq q
    simp only [FileSystem.held, List.count_append] at hfiles ⊢
    omega
  unfold FileSystem.destructor
  split
  · rename_i hfd
    rw [IoFile.owns, hfits.mpr hfd] at hrest
    exact fileStep_quiet ⟨h.minus, forall_eraseIdx h.files i, h.requests, h.waiting⟩ nofun (.pass hrest.symm)
  · exact fileStep_close ⟨fun fd hfd => HandleTable.release_free (h.minus fd hfd) _, forall_eraseIdx h.files i,
      h.requests, h.waiting⟩ h rfl hfits hstale hrest

theorem resumed_fd (hopen : r.req ≠ .OPEN) : r.resumed = r.fd := by
  unfold FileRequest.resumed
  split
  · contradiction
  · rfl

theorem resumed_done (hopen : r.req ≠ .OPEN) (stands : Standing) (cqe_res : Option Int) :
    (⟨r.req, r.fd, stands, cqe_res⟩ : FileRequest).resumed = r.resumed :=
  (resumed_fd (r := ⟨r.req, r.fd, stands, cqe_res⟩) hopen).trans (resumed_fd hopen).symm

theorem perform_quiet (h : FilesOk s) (hr : s.requests[n]? = some r) (hdone : done.cqe_res = some res)
    (hfits : Fits done.resumed done.stands) (howns : done.owns = r.owns) :
    FileStep s { s with requests := s.requests.set n done } [] := by
  have hwaiting : done.cqe_res = none → done.Waiting := by
    rw [hdone]
    nofun
  refine fileStep_quiet ⟨h.minus, h.files, forall_set h.requests n hfits, forall_set h.waiting n hwaiting⟩ nofun
    (.pass ?_)
  have hset := (flatMap_set FileRequest.owns hr done).trans
    (.trans (.of_eq (by rw [howns])) (flatMap_eraseIdx FileRequest.owns hr).symm)
  exact (hset.append_left _).append_left _

theorem perform_keep (h : FilesOk s) (hr : s.requests[n]? = some r) (hopen : r.req ≠ .OPEN) :
    FileStep s { s with requests := s.requests.set n { r with cqe_res := some res } } [] := by
  have hresumed := resumed_done hopen r.stands (some res)
  refine perform_quiet h hr rfl ?_ ?_
  · rw [hresumed]
    exact h.requests r (List.mem_of_getElem? hr)
  · rw [FileRequest.owns, hresumed, FileRequest.owns]

theorem perform_step (h : FilesOk s) (hr : s.requests[n]? = some r) (hwait : r.cqe_res = none)
    (hs : s.perform n r res = some (s', es)) : FileStep s s' es := by
  have hmem := List.mem_of_getElem? hr
  have hfits := h.requests r hmem
  obtain ⟨hopening, hclosing⟩ := h.waiting r hmem hwait
  unfold FileSystem.perform at hs
  split at hs
  · rename_i hopen
    have hnothing := hopening hopen
    split at hs
    · rename_i hres
      cases hs
      refine perform_quiet h hr rfl ?_ ?_
      · rw [hnothing, FileRequest.resumed, hopen]
        exact ⟨fun _ => hres, fun _ => rfl⟩
      · rw [FileRequest.owns, FileRequest.owns, hnothing]
        rfl
    · rename_i hres
      obtain ⟨⟨kernel, k⟩, hgive, hs⟩ := Option.bind_eq_some_iff.mp hs
      cases hs
      have hresumed : (⟨r.req, r.fd, .live k, some res⟩ : FileRequest).resumed = res := by
        rw [FileRequest.resumed, hopen]
        rfl
      refine fileStep_quiet ⟨h.minus_give hres hgive, h.files, forall_set h.requests n ?_,
        forall_set h.waiting n nofun⟩ nofun (.give hgive ?_)
      · rw [hresumed]
        exact fits_live hres
      · refine List.perm_iff_count.mpr fun q => ?_
        have hset := (flatMap_set FileRequest.owns hr ⟨r.req, r.fd, .live k, some res⟩).count_eq q
        have herase := (flatMap_eraseIdx FileRequest.owns hr).count_eq q
        have hnone : r.owns = [] := by
          rw [FileRequest.owns, hnothing]
          rfl
        have hone : (⟨r.req, r.fd, .live k, some res⟩ : FileRequest).owns = [(res, k)] := by
          rw [FileRequest.owns, hresumed]
          rfl
        rw [hone] at hset
        rw [hnone, List.nil_append] at herase
        rw [← List.singleton_append]
        simp only [FileSystem.held, List.count_append] at hset herase ⊢
        omega
  · rename_i hclose
    have hopen : r.req ≠ .OPEN := by
      rw [hclose]
      nofun
    split at hs
    · cases hs
      exact perform_keep h hr hopen
    · cases hs
      rw [resumed_fd hopen] at hfits
      refine fileStep_close ⟨fun fd hfd => HandleTable.release_free (h.minus fd hfd) _, h.files,
        forall_set h.requests n ?_, forall_set h.waiting n nofun⟩ h rfl hfits (hclosing hclose) ?_
      · rw [resumed_done hopen, resumed_fd hopen]
        exact hfits.released
      · refine List.perm_iff_count.mpr fun q => ?_
        have hnone : (⟨r.req, r.fd, r.stands.released, some res⟩ : FileRequest).owns = [] := by
          rw [FileRequest.owns]
          cases r.stands <;> rfl
        have htake := (flatMap_take FileRequest.owns hr hnone).count_eq q
        rw [FileRequest.owns, resumed_fd hopen] at htake
        simp only [FileSystem.held, List.count_append] at htake ⊢
        omega
  · rename_i hopen _
    cases hs
    exact perform_keep h hr hopen

theorem ioFiles_step (h : FilesOk s) (hcareful : s.careful a = true) (hs : ioFiles.step s a = some (s', es)) :
    FileStep s s' es := by
  cases a with
  | opens fd =>
    obtain ⟨hfd, hs⟩ := Option.ite_none_left_eq_some.mp hs
    obtain ⟨⟨kernel, k⟩, hgive, hs⟩ := Option.bind_eq_some_iff.mp hs
    cases hs
    exact fileStep_quiet ⟨h.minus_give hfd hgive, h.files, h.requests, h.waiting⟩ nofun (.give hgive (.refl _))
  | closes j =>
    obtain ⟨p, hp, hs⟩ := Option.bind_eq_some_iff.mp hs
    cases hs
    exact fileStep_quiet ⟨fun fd hfd => HandleTable.release_free (h.minus fd hfd) _, h.files, h.requests,
      h.waiting⟩ (by simp) (.release ((perm_eraseIdx hp).append_right _))
  | construct =>
    cases hs
    refine fileStep_quiet ⟨h.minus, forall_concat h.files fits_new, h.requests, h.waiting⟩ nofun (.pass ?_)
    simp only [FileSystem.held, List.flatMap_append]
    exact .of_eq (by rw [show [IoFile.new].flatMap IoFile.owns = [] from rfl, List.append_nil])
  | async_open =>
    cases hs
    refine fileStep_quiet ⟨h.minus, h.files, forall_concat h.requests ⟨fun _ => by decide, fun _ => rfl⟩,
      forall_concat h.waiting fun _ => ⟨fun _ => rfl, fun _ => rfl⟩⟩ nofun (.pass ?_)
    simp only [FileSystem.held, FileSystem.async_open, List.flatMap_append]
    exact .of_eq (by rw [show [FileRequest.mk .OPEN (-1) .nothing none].flatMap FileRequest.owns = [] from rfl,
      List.append_nil])
  | async_write i | async_read i =>
    obtain ⟨x, hx, hs⟩ := Option.bind_eq_some_iff.mp hs
    cases hs
    exact async_step h hx nofun nofun
  | async_close i =>
    obtain ⟨x, hx, hs⟩ := Option.bind_eq_some_iff.mp hs
    cases hs
    rw [FileSystem.careful, hx, Option.all_some, Bool.not_eq_true'] at hcareful
    exact async_step h hx nofun fun _ => hcareful
  | moveConstruct i =>
    obtain ⟨x, hx, hs⟩ := Option.bind_eq_some_iff.mp hs
    cases hs
    have hfiles := forall_concat (forall_set h.files i fits_new) (h.files x (List.mem_of_getElem? hx))
    refine fileStep_quiet ⟨h.minus, hfiles, h.requests, h.waiting⟩ nofun (.pass ?_)
    simp only [FileSystem.held, List.flatMap_append, List.flatMap_singleton]
    exact ((List.perm_append_comm.trans (flatMap_take IoFile.owns hx rfl).symm).append_right _).append_left _
  | take_handle i =>
    obtain ⟨x, hx, hs⟩ := Option.bind_eq_some_iff.mp hs
    cases hs
    refine fileStep_quiet ⟨h.minus, forall_set h.files i fits_new, h.requests, h.waiting⟩ (by simp) (.pass ?_)
    refine List.perm_iff_count.mpr fun q => ?_
    have htake := (flatMap_take IoFile.owns hx (z := .new) rfl).count_eq q
    simp only [FileSystem.held, List.count_append] at htake ⊢
    omega
  | destroy i =>
    obtain ⟨x, hx, hs⟩ := Option.bind_eq_some_iff.mp hs
    rw [FileSystem.careful, hx, Option.all_some, Bool.not_eq_true'] at hcareful
    have hstep := destructor_fileStep h hx hcareful
    rwa [show s.destructor i x = (s', es) from Option.some.inj hs] at hstep
  | perform n res =>
    obtain ⟨r, hr, hs⟩ := Option.bind_eq_some_iff.mp hs
    obtain ⟨hwait, hs⟩ := Option.ite_none_left_eq_some.mp hs
    exact perform_step h hr (by simpa using hwait) hs
  | complete n =>
    obtain ⟨r, hr, hs⟩ := Option.bind_eq_some_iff.mp hs
    obtain ⟨-, hs⟩ := Option.ite_none_right_eq_some.mp hs
    cases hs
    refine fileStep_quiet ⟨h.minus, forall_concat h.files (h.requests r (List.mem_of_getElem? hr)),
      forall_eraseIdx h.requests n, forall_eraseIdx h.waiting n⟩ nofun (.pass ?_)
    refine List.perm_iff_count.mpr fun q => ?_
    have herase := (flatMap_eraseIdx FileRequest.owns hr).count_eq q
    have howns : (⟨r.resumed, r.stands⟩ : IoFile).owns = r.owns := rfl
    simp only [FileSystem.held, FileSystem.complete, List.flatMap_append, List.flatMap_singleton, howns,
      List.count_append] at herase ⊢
    omega

-- ---------------------------------------------------------------------------
-- What is outside
-- ---------------------------------------------------------------------------

structure FileOrigin (s s' : FileSystem) (es : List FileEv) : Prop where
  made : s.kernel.made ≤ s'.kernel.made
  opened : ∀ fd k, .opened fd k ∈ es → s.kernel.made ≤ k ∧ k < s'.kernel.made
  outside : ∀ p ∈ s'.outside, p ∈ s.outside ∨ (∃ fd, .taken fd (.live p.2) ∈ es) ∨
    s.kernel.made ≤ p.2 ∧ ∀ fd, .opened fd p.2 ∉ es

theorem fileOrigin_quiet (hmade : s'.kernel.made = s.kernel.made) (hes : ∀ fd k, .opened fd k ∉ es)
    (houtside : ∀ p ∈ s'.outside, p ∈ s.outside) : FileOrigin s s' es :=
  ⟨Nat.le_of_eq hmade.symm, fun _ _ hmem => absurd hmem (hes _ _), fun p hp => .inl (houtside p hp)⟩

theorem perform_origin (hs : s.perform n r res = some (s', es)) : FileOrigin s s' es := by
  unfold FileSystem.perform at hs
  split at hs
  · split at hs
    · cases hs
      exact fileOrigin_quiet rfl nofun fun _ hp => hp
    · obtain ⟨⟨kernel, k⟩, hgive, hs⟩ := Option.bind_eq_some_iff.mp hs
      cases hs
      obtain ⟨rfl, hmade⟩ := HandleTable.give_made hgive
      have hlt : s.kernel.made < kernel.made := by omega
      refine ⟨Nat.le_of_lt hlt, ?_, fun _ hp => .inl hp⟩
      rintro fd k (_ | ⟨_, ⟨⟩⟩)
      exact ⟨Nat.le_refl _, hlt⟩
  · split at hs
    · cases hs
      exact fileOrigin_quiet rfl nofun fun _ hp => hp
    · cases hs
      exact fileOrigin_quiet rfl (by simp) fun _ hp => hp
  · cases hs
    exact fileOrigin_quiet rfl nofun fun _ hp => hp

theorem ioFiles_origin (hs : ioFiles.step s a = some (s', es)) : FileOrigin s s' es := by
  cases a with
  | opens fd =>
    obtain ⟨-, hs⟩ := Option.ite_none_left_eq_some.mp hs
    obtain ⟨⟨kernel, k⟩, hgive, hs⟩ := Option.bind_eq_some_iff.mp hs
    cases hs
    obtain ⟨rfl, hmade⟩ := HandleTable.give_made hgive
    have hlt : s.kernel.made < kernel.made := by omega
    refine ⟨Nat.le_of_lt hlt, nofun, ?_⟩
    rintro p (_ | ⟨_, hp⟩)
    · exact .inr (.inr ⟨Nat.le_refl _, nofun⟩)
    · exact .inl hp
  | construct | async_open =>
    cases hs
    exact fileOrigin_quiet rfl nofun fun _ hp => hp
  | closes i =>
    obtain ⟨p, hp, hs⟩ := Option.bind_eq_some_iff.mp hs
    cases hs
    exact fileOrigin_quiet rfl (by simp) fun _ hp => List.mem_of_mem_eraseIdx hp
  | async_write i | async_read i | async_close i | moveConstruct i =>
    obtain ⟨x, hx, hs⟩ := Option.bind_eq_some_iff.mp hs
    cases hs
    exact fileOrigin_quiet rfl nofun fun _ hp => hp
  | take_handle i =>
    obtain ⟨x, hx, hs⟩ := Option.bind_eq_some_iff.mp hs
    cases hs
    refine ⟨Nat.le_refl _, by simp, fun p hp => ?_⟩
    rcases List.mem_append.mp hp with hp | hp
    · refine .inr (.inl ⟨x.m_fd, ?_⟩)
      unfold IoFile.owns at hp
      cases hx' : x.stands <;> rw [hx'] at hp <;> cases hp
      · exact .head _
      · contradiction
    · exact .inl hp
  | destroy i =>
    obtain ⟨x, hx, hs⟩ := Option.bind_eq_some_iff.mp hs
    have hs := Option.some.inj hs
    unfold FileSystem.destructor at hs
    split at hs
    · cases hs
      exact fileOrigin_quiet rfl nofun fun _ hp => hp
    · cases hs
      exact fileOrigin_quiet rfl (by simp) fun _ hp => hp
  | perform n res =>
    obtain ⟨r, hr, hs⟩ := Option.bind_eq_some_iff.mp hs
    obtain ⟨-, hs⟩ := Option.ite_none_left_eq_some.mp hs
    exact perform_origin hs
  | complete n =>
    obtain ⟨r, hr, hs⟩ := Option.bind_eq_some_iff.mp hs
    obtain ⟨-, hs⟩ := Option.ite_none_right_eq_some.mp hs
    cases hs
    exact fileOrigin_quiet rfl nofun fun _ hp => hp

structure Known (tr : List FileEv) (s : FileSystem) : Prop where
  opened : ∀ fd k, .opened fd k ∈ tr → k < s.kernel.made
  outside : ∀ p ∈ s.outside, (∃ fd, .taken fd (.live p.2) ∈ tr) ∨ ∀ fd, .opened fd p.2 ∉ tr

theorem Known.step (h : Known tr s) (hlt : ∀ p ∈ s.outside, p.2 < s.kernel.made) (hs : FileOrigin s s' es) :
    Known (tr ++ es) s' := by
  refine ⟨fun fd k hmem => ?_, fun p hp => ?_⟩
  · rcases List.mem_append.mp hmem with hmem | hmem
    · exact Nat.lt_of_lt_of_le (h.opened fd k hmem) hs.made
    · exact (hs.opened fd k hmem).2
  · obtain hp | ⟨fd, htaken⟩ | ⟨hmade, hnot⟩ := hs.outside p hp
    · obtain ⟨fd, htaken⟩ | hnot := h.outside p hp
      · exact .inl ⟨fd, List.mem_append_left _ htaken⟩
      · refine .inr fun fd hmem => ?_
        rcases List.mem_append.mp hmem with hmem | hmem
        · exact hnot fd hmem
        · exact Nat.not_lt.mpr (hs.opened fd _ hmem).1 (hlt p hp)
    · exact .inl ⟨fd, List.mem_append_right _ htaken⟩
    · refine .inr fun fd hmem => ?_
      rcases List.mem_append.mp hmem with hmem | hmem
      · exact Nat.not_lt.mpr hmade (h.opened fd _ hmem)
      · exact hnot fd hmem

-- ---------------------------------------------------------------------------
-- Runs
-- ---------------------------------------------------------------------------

theorem ioFiles_ledger (h : ioFiles.RunIf (fun s a => s.careful a = true) tr s) :
    FilesOk s ∧ Ledger s.kernel (tr.flatMap FileEv.closes) s.held := by
  refine ledger_run (I := FilesOk) rfl rfl ⟨fun _ _ => rfl, ?_, ?_, ?_⟩ ?_ h
  · exact fun _ hx => absurd hx List.not_mem_nil
  · exact fun _ hx => absurd hx List.not_mem_nil
  · exact fun _ hx => absurd hx List.not_mem_nil
  · intro s a s' es hok hcareful hs
    have hstep := ioFiles_step hok hcareful hs
    exact ⟨hstep.ok, hstep.ledger⟩

theorem ioFiles_known (h : ioFiles.RunIf (fun s a => s.careful a = true) tr s) : Known tr s := by
  refine h.invariant (I := Known) ⟨nofun, fun _ hp => absurd hp List.not_mem_nil⟩ ?_
  intro tr s a s' es hr hknown _ hs
  have hledger := (ioFiles_ledger hr).2
  exact hknown.step (fun p hp => hledger.held_lt (List.mem_append_left _ hp)) (ioFiles_origin hs)

theorem io_file_closes_once (h : ioFiles.RunIf (fun s a => s.careful a = true) tr s) : FilesClosed tr s := by
  have hledger := (ioFiles_ledger h).2
  refine ⟨fun k => ?_, ?_, ?_⟩
  · have hcount := hledger.count k
    split at hcount <;> omega
  · refine h.invariant (I := fun tr _ => ∀ fd stands hit, .closed fd stands hit ∈ tr → hit = stands.resource)
      nofun ?_
    intro tr s a s' es hr hown hcareful hs fd stands hit hmem
    obtain ⟨hok, hledger⟩ := ioFiles_ledger hr
    rcases List.mem_append.mp hmem with hmem | hmem
    · exact hown fd stands hit hmem
    · obtain ⟨hfits, hstale, hheld, rfl⟩ := (ioFiles_step hok hcareful hs).own fd stands hit hmem
      exact hledger.inUse_own (hok.free hfits) hstale hheld
  · intro hfiles hrequests fd k hopened htaken
    have hknown := ioFiles_known h
    have hcount := hledger.count k
    have hheld : s.held = s.outside := by
      rw [FileSystem.held, hfiles, hrequests]
      exact List.append_nil _
    have hnot : k ∉ s.outside.map Prod.snd := by
      intro hmem
      obtain ⟨p, hp, rfl⟩ := List.mem_map.mp hmem
      obtain ⟨fd', htaken'⟩ | hnot := hknown.outside p hp
      · exact htaken fd' htaken'
      · exact hnot fd hopened
    rw [if_pos (hknown.opened fd k hopened), hheld, List.count_eq_zero.mpr hnot] at hcount
    exact hcount

theorem io_file_closes_once_read : ∃ tr s, ioFiles.RunIf (fun s a => s.careful a = true) tr s ∧
    tr = [.opened 5 0, .closed 5 (.live 0) (some 0), .taken 5 (.stale 0)] ∧ s.files = [] ∧ s.requests = [] ∧
      s.kernel.inUse 5 = some 1 ∧ FilesClosed tr s := by
  have hr : ((ioFiles.only fun s a => s.careful a = true).replay ⟨.empty, [], [], []⟩ [.async_open, .perform 0 5,
      .complete 0, .async_read 0, .destroy 0, .perform 0 3, .complete 0, .async_close 0, .destroy 0, .perform 0 0,
      .opens 5, .complete 0, .take_handle 0, .destroy 0]).isSome := rfl
  have hrun := Machine.steps_of_replay_only (Option.some_get hr).symm
  exact ⟨_, _, hrun, rfl, rfl, rfl, rfl, io_file_closes_once hrun⟩

/-- The callback of `async_close` leaves the number in its `io_file`, whose
destructor closes the descriptor that has it by then. -/
theorem io_file_closes_another : ∃ tr s, ioFiles.Run tr s ∧
    tr = [.opened 5 0, .closed 5 (.live 0) (some 0), .closed 5 (.stale 0) (some 1)] ∧ ¬FilesClosed tr s := by
  have hr : (ioFiles.replay ⟨.empty, [], [], []⟩ [.async_open, .perform 0 5, .complete 0, .async_close 0,
      .destroy 0, .perform 0 0, .opens 5, .complete 0, .destroy 0]).isSome := rfl
  refine ⟨_, _, Machine.steps_of_replay (Option.some_get hr).symm, rfl, fun hclosed => ?_⟩
  cases hclosed.own 5 (.stale 0) (some 1) (by decide)

end

end Andren.Network
