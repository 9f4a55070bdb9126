import Andren.Network.FileSession
import Andren.Network.IoFile
import Andren.Network.IoFileRequest

/-!
# The operations of files on a service

The kernel carries out the requests of any number of files in whatever order it likes, and makes
their CQEs in another one. The order in which it carried them out, the immediate operations between
them, is a run of the kernel alone that explains what the callbacks and the immediate operations tell
(`io_files_serial`).
-/

namespace Andren.Network

open Machines Base AFile

open scoped List

/-- The disk, and what stands behind each descriptor. -/
structure IoKernel where
  disk : Bytes → Option Bytes
  fds : Int → Option Description

abbrev FileJob : Type := Req × FileIo

inductive FileOp
  | job (uid : Nat) (job : FileJob)
  | immediately_open (path : Bytes) (flags mode : BitVec 32)
  | immediately_write (fd : Int) (data : Bytes)
  | immediately_read (fd : Int) (data : Bytes)
  /-- Also the destructor. -/
  | immediately_close (fd : Int)

/-- The call of a callback, or what an immediate operation returns, with what its buffer has in it. -/
inductive FileAnswer
  | onOpen (ret : Int)
  | onWrite (wrsize : Int)
  | onRead (data : Bytes) (rdsize : Nat)
  | onClose
  | returns (ret : Int) (data : Bytes)
  deriving DecidableEq

def sizeofBuf : Nat := 728

def AT_FDCWD : Int := -100

namespace IoKernel

def content (k : IoKernel) (name : Bytes) : Bytes := (k.disk name).getD []

def openat (k : IoKernel) (name : Bytes) (flags : Nat) (fd : Int) : Option IoKernel :=
  if (k.fds fd).isSome ∨ (k.disk name).isNone ∧ flags &&& O_CREAT = 0 then none
  else some ⟨Function.update k.disk name (some (opened (k.disk name) flags)),
    Function.update k.fds fd (some ⟨name, flags, 0⟩)⟩

/-- The bytes `data` are written through `d`; what stands behind the descriptor then. -/
def write (k : IoKernel) (d : Description) (data : Bytes) : Option (IoKernel × Description) :=
  if d.flags &&& O_ACCMODE = O_RDONLY then none
  else
    let (d', c) := Description.write d (k.content d.path) data
    some ({ k with disk := Function.update k.disk d.path (some c) }, d')

def read (k : IoKernel) (d : Description) (size : Nat) : Option Bytes :=
  if d.flags &&& O_ACCMODE = O_WRONLY then none
  else some (((k.content d.path).drop d.offset).take size)

/-- The kernel carries out a request with the result `res`, and puts the bytes at the beginning of its
`buf`. A request that fails leaves all as it was, but that a `CLOSE` has released the descriptor if
there was one. -/
def carryOut (absolute : Int → Bytes → Bytes) (k : IoKernel) (job : FileJob) (res : Int) :
    Option (IoKernel × Bytes) :=
  let (req, io) := job
  if res < 0 ∧ (req = .CLOSE → res = -EBADF) then some (k, [])
  else match req with
    | .OPEN => do
      let k ← k.openat (absolute io.dfd (c_str io.path)) io.flags.toNat res
      pure (k, [])
    | .WRITE => do
      let d ← k.fds io.fd
      let size := io.data.length % 2 ^ 32
      if size < res.toNat then none
      else
        let (k, _) ← k.write { d with offset := 0 } (io.data.take res.toNat)
        pure (k, [])
    | .READ => do
      let d ← k.fds io.fd
      let data ← k.read { d with offset := 0 } sizeofBuf
      if data.length < res.toNat then none else pure (k, data.take res.toNat)
    | .CLOSE => some ({ k with fds := Function.update k.fds io.fd none }, [])
    | _ => some (k, [])

/-- An immediate operation, for which the system call returns `res`. -/
def immediately (absolute : Int → Bytes → Bytes) (k : IoKernel) (op : FileOp) (res : Int) :
    Option (IoKernel × List FileAnswer) :=
  match op with
  | .job .. => none
  | .immediately_open path flags _ =>
    if res < 0 then some (k, [.returns 0 []])
    else do
      let k ← k.openat (absolute AT_FDCWD (c_str path)) flags.toNat res
      pure (k, [.returns 1 []])
  | .immediately_write fd data =>
    if res < 0 then some (k, [.returns res data])
    else do
      let d ← k.fds fd
      if data.length < res.toNat then none
      else
        let (k, d) ← k.write d (data.take res.toNat)
        pure ({ k with fds := Function.update k.fds fd (some d) }, [.returns res data])
  | .immediately_read fd data =>
    if res < 0 then some (k, [.returns res data])
    else do
      let d ← k.fds fd
      let got ← k.read d data.length
      if got.length < res.toNat then none
      else
        let got := got.take res.toNat
        pure ({ k with fds := Function.update k.fds fd (some { d with offset := d.offset + got.length }) },
          [.returns res (put data 0 got)])
  | .immediately_close fd =>
    some (if fd < 0 then k else { k with fds := Function.update k.fds fd none }, [])

end IoKernel

/-- The callback of a request, which has `buf` in it by now. -/
def callback (req : Req) (res : Int) (buf : Bytes) : List FileAnswer :=
  match req with
  | .OPEN => [.onOpen res]
  | .WRITE => [.onWrite res]
  | .READ =>
    let str := if 0 < res ∧ res ≤ sizeofBuf then buf.take res.toNat else []
    [.onRead str str.length]
  | .CLOSE => [.onClose]
  | _ => []

/-- The kernel alone, which carries out one operation after the other. -/
def ioKernel (absolute : Int → Bytes → Bytes) (k₀ : IoKernel) : Machine IoKernel (FileOp × Int) FileAnswer where
  init := k₀
  step k
    | (.job _ job, res) => do
      let (k, data) ← k.carryOut absolute job res
      pure (k, callback job.1 res data)
    | (op, res) => k.immediately absolute op res

-- ---------------------------------------------------------------------------
-- Files on the service
-- ---------------------------------------------------------------------------

inductive FileCall
  | async_open (path : Bytes) (dir_fd : Int) (flags mode : BitVec 32)
  | async_write (fd : Int) (data : Bytes)
  | async_read (fd : Int)
  | async_close (fd : Int)

def FileCall.job : FileCall → FileJob
  | .async_open path dir_fd flags mode =>
    (.OPEN, { FileIo.zero with dfd := dir_fd, flags, mode, path := openPath path })
  | .async_write fd data => (.WRITE, { FileIo.zero with fd, data })
  | .async_read fd => (.READ, { FileIo.zero with fd })
  | .async_close fd => (.CLOSE, { FileIo.zero with fd })

def FileCall.context (c : FileCall) (uid : Nat) : IoContext FileIo := ⟨some c.job.2, some ⟨c.job.1, uid⟩⟩

/-- Each call submits the request of its job. -/
theorem fileCall_submits (w : Services FileIo) (ioservice uid : Nat) :
    (∀ path dir_fd flags mode, async_open w ioservice uid path dir_fd flags mode =
      w.submitRequest ioservice uid ((FileCall.async_open path dir_fd flags mode).context uid)) ∧
    (∀ fd data, async_write w ioservice uid fd data =
      (w.submitRequest ioservice uid ((FileCall.async_write fd data).context uid)).map fun r => (r.1, -1, r.2)) ∧
    (∀ fd, async_read w ioservice uid fd =
      (w.submitRequest ioservice uid ((FileCall.async_read fd).context uid)).map fun r => (r.1, -1, r.2)) ∧
    ∀ fd, async_close w ioservice uid fd =
      (w.submitRequest ioservice uid ((FileCall.async_close fd).context uid)).map fun r => (r.1, -1, r.2) := by
  have hhandle (fd : Int) (req : Req) (io : FileIo) : submitHandle w ioservice uid fd req io =
      (w.submitRequest ioservice uid ⟨some { io with fd }, some ⟨req, uid⟩⟩).map fun r => (r.1, -1, r.2) := by
    cases h : w.submitRequest ioservice uid ⟨some { io with fd }, some ⟨req, uid⟩⟩ <;>
      simp [submitHandle, take_handle, h]
  exact ⟨fun _ _ _ _ => rfl, fun fd data => hhandle fd .WRITE _, fun fd => hhandle fd .READ _,
    fun fd => hhandle fd .CLOSE _⟩

def IoContext.job (context : IoContext FileIo) : Option FileJob := do
  let request ← context.req_context
  let io ← context.onEvents
  pure (request.req, io)

structure FileService where
  service : IOService FileIo
  kernel : IoKernel
  /-- `ioData.bufData.buf` of the request in the entry of each uid. -/
  buf : Nat → Bytes
  /-- The results of the requests that are carried out and have no CQE yet. -/
  results : Nat → Option Int
  _uid_u64_last : BitVec 64
  /-- The calls that have a uid and have yet to submit their requests. -/
  calls : List (Nat × FileCall)

inductive FileServiceAct
  | call (c : FileCall)
  | submit (i : Nat)
  /-- Another part of the program takes a uid. -/
  | create_uid_u64
  | immediate (op : FileOp) (res : Int)
  /-- The kernel carries out the request of SQE number `k`. -/
  | carryOut (k : Nat) (res : Int)
  | service (a : IoAct FileIo)

inductive FileServiceEv
  | io (e : IoEv FileIo)
  /-- A request is carried out, and this is what its callback has to tell. -/
  | carried (op : FileOp) (es : List FileAnswer)
  | told (op : FileOp) (es : List FileAnswer)

namespace FileService

def create_uid_u64 (s : FileService) : FileService × Nat :=
  ({ s with _uid_u64_last := s._uid_u64_last + 1 }, s._uid_u64_last.toNat)

def reactTo (s : FileService) : IoEv FileIo → Option (FileService × List FileServiceEv)
  | .stored uid _ _ => some ({ s with buf := Function.update s.buf uid (List.replicate sizeofBuf 0) }, [])
  | .posted uid _ res =>
    if s.results uid = some res then some ({ s with results := Function.update s.results uid none }, []) else none
  | .handled uid context res => do
    let job ← context.job
    pure (s, [.told (.job uid job) (callback job.1 res (s.buf uid))])
  | .accepted .. | .finished .. => some (s, [])

def react : FileService → List (IoEv FileIo) → Option (FileService × List FileServiceEv)
  | s, [] => some (s, [])
  | s, e :: es => do
    let (s, out) ← s.reactTo e
    let (s, outs) ← s.react es
    pure (s, .io e :: out ++ outs)

def drive (entries m_size : Nat) (s : FileService) (a : IoAct FileIo) :
    Option (FileService × List FileServiceEv) := do
  let (service, es) ← (ioService entries m_size FileIo).step s.service a
  { s with service }.react es

/-- A request that is on its way is carried out once. -/
def carryOut (absolute : Int → Bytes → Bytes) (s : FileService) (sqe : Sqe FileIo) (res : Int) :
    Option (FileService × List FileServiceEv) :=
  if (s.results sqe.uid).isSome then none
  else do
    let job ← sqe.context.job
    let (kernel, data) ← s.kernel.carryOut absolute job res
    pure ({ s with
      kernel
      buf := Function.update s.buf sqe.uid (put (s.buf sqe.uid) 0 data)
      results := Function.update s.results sqe.uid (some res) },
      [.carried (.job sqe.uid job) (callback job.1 res data)])

end FileService

/-- Any number of files that share a service on a ring of `entries`, and the kernel. -/
def fileService (entries m_size : Nat) (absolute : Int → Bytes → Bytes) (k₀ : IoKernel) :
    Machine FileService FileServiceAct FileServiceEv where
  init := ⟨.new m_size FileIo, k₀, fun _ => [], fun _ => none, 1000, []⟩
  step s
    | .call c =>
      let (s, uid) := s.create_uid_u64
      some ({ s with calls := s.calls ++ [(uid, c)] }, [])
    | .submit i => do
      let (uid, c) ← s.calls[i]?
      { s with calls := s.calls.eraseIdx i }.drive entries m_size (.submitRequest uid (c.context uid))
    | .create_uid_u64 => some (s.create_uid_u64.1, [])
    | .immediate op res => do
      let (kernel, es) ← s.kernel.immediately absolute op res
      pure ({ s with kernel }, [.told op es])
    | .carryOut k res => do
      let sqe ← s.service.inflight[k]?
      s.carryOut absolute sqe res
    -- only the calls submit requests
    | .service (.submitRequest ..) => none
    | .service a => s.drive entries m_size a

/-- The counter has not come round. -/
def FileService.UidsLeft (s : FileService) : FileServiceAct → Prop
  | .call _ | .create_uid_u64 => s._uid_u64_last.toNat + 1 < 2 ^ 64
  | _ => True

def ioEvents (tr : List FileServiceEv) : List (IoEv FileIo) :=
  tr.filterMap fun
    | .io e => some e
    | .carried .. | .told .. => none

def answers (tr : List FileServiceEv) : List (FileOp × List FileAnswer) :=
  tr.filterMap fun
    | .told op es => some (op, es)
    | .io _ | .carried .. => none

def FileOp.isJob : FileOp → Bool
  | .job .. => true
  | _ => false

/-- The operations in the order in which the kernel carried them out. -/
def operations (tr : List FileServiceEv) : List (FileOp × List FileAnswer) :=
  tr.filterMap fun
    | .carried op es => some (op, es)
    | .told op es => if op.isJob then none else some (op, es)
    | .io _ => none

def asked (tr : List FileServiceEv) : List FileOp :=
  (acceptedRequests (ioEvents tr)).filterMap fun r => r.2.job.map (.job r.1)

def jobs (l : List (FileOp × List FileAnswer)) : List (FileOp × List FileAnswer) := l.filter fun p => p.1.isJob

def immediates (l : List (FileOp × List FileAnswer)) : List (FileOp × List FileAnswer) := l.filter fun p => !p.1.isJob

-- ---------------------------------------------------------------------------
-- Steps of the service
-- ---------------------------------------------------------------------------

def IoEv.silent {D : Type} : IoEv D → Bool
  | .finished .. => true
  | .accepted .. | .stored .. | .posted .. | .handled .. => false

theorem silent_spec {D : Type} {es : List (IoEv D)} (h : ∀ e ∈ es, e.silent) :
    posted es = [] ∧ handled es = [] ∧ acceptedRequests es = [] := by
  refine ⟨List.filterMap_eq_nil_iff.mpr ?_, List.filterMap_eq_nil_iff.mpr ?_, List.filterMap_eq_nil_iff.mpr ?_⟩ <;>
  · intro e he
    have hsilent := h e he
    cases e <;> simp_all [IoEv.silent]

/-- What a step is for the requests in the kernel: one is accepted, or stored under a free uid; SQEs go to the
kernel; a CQE is made, or handled. -/
inductive IoTurn {D : Type} (s s' : IOService D) : IoAct D → List (IoEv D) → Prop
  | accepted {uid : Nat} {context : IoContext D} (hinflight : s'.inflight = s.inflight) :
      IoTurn s s' (.submitRequest uid context) [.accepted uid context]
  | stored {a : IoAct D} {uid : Nat} {context : IoContext D} {ret : Bool} (hfree : s.m_fds_context uid = none)
      (hinflight : s'.inflight = s.inflight) : IoTurn s s' a [.stored uid context ret]
  | silent {a : IoAct D} {es : List (IoEv D)} (k : Nat) (hes : ∀ e ∈ es, e.silent)
      (hinflight : s'.inflight = s.inflight ++ s.sq.take k) : IoTurn s s' a es
  | posted {a : IoAct D} {k : Nat} {sqe : Sqe D} {res : Int} (hsqe : s.inflight[k]? = some sqe)
      (hinflight : s'.inflight = s.inflight.eraseIdx k) : IoTurn s s' a [.posted sqe.uid sqe.context res]
  | handled {a : IoAct D} {uid : Nat} {context : IoContext D} {res : Int} {rest : List (IoEv D)}
      (hes : ∀ e ∈ rest, e.silent) (hinflight : s'.inflight = s.inflight) :
      IoTurn s s' a (.handled uid context res :: rest)

theorem IoTurn.accepts {D : Type} {s s' : IOService D} {a : IoAct D} {es : List (IoEv D)} (h : IoTurn s s' a es)
    (ha : ∀ uid context, a ≠ .submitRequest uid context) : acceptedRequests es = [] := by
  cases h with
  | accepted => exact absurd rfl (ha _ _)
  | silent k hes => exact (silent_spec hes).2.2
  | handled hes => exact (silent_spec hes).2.2
  | _ => rfl

theorem IoTurn.still {D : Type} {s s' : IOService D} (a : IoAct D) (h : s'.inflight = s.inflight) :
    IoTurn s s' a [] :=
  .silent 0 (List.forall_mem_nil _) (h.trans (List.append_nil _).symm)

theorem erase_inflight {D : Type} {s s' : IOService D} (h : s.erase uid iter = some s') :
    s'.inflight = s.inflight := by
  cases iter with
  | none => cases h
  | some a =>
    cases h
    rfl

theorem io_turn {D : Type} {entries m_size : Nat} {s s' : IOService D} {a : IoAct D} {es : List (IoEv D)}
    (hok : Matched s a) (hs : (ioService entries m_size D).step s a = some (s', es)) : IoTurn s s' a es := by
  cases a with
  | submitRequest uid context =>
    cases hs
    exact .accepted rfl
  | runFn a =>
    simp only [ioService] at hs
    split at hs
    · rename_i uid context results htick
      simp only [Option.bind_eq_bind, Option.bind_eq_some_iff] at hs
      obtain ⟨r, hr, hs⟩ := hs
      cases hs
      have hfree : s.m_fds_context uid = none := hok (uid, context) (by rw [htick]; rfl)
      obtain ⟨-, -, ⟨⟨used, rfl⟩, -⟩ | ⟨rfl, -⟩⟩ := submitRequest_Private_eq hfree hr
      · exact .stored hfree rfl
      · exact .stored hfree rfl
    · cases hs
  | complete k res =>
    simp only [ioService, Option.bind_eq_bind, Option.bind_eq_some_iff] at hs
    obtain ⟨sqe, hsqe, hs⟩ := hs
    cases hs
    exact .posted hsqe rfl
  | handle =>
    simp only [ioService] at hs
    split at hs
    · cases hs
      exact .still _ rfl
    · unfold IOService.handle at hs
      dsimp only at hs
      split at hs
      · cases hs
        exact .still _ rfl
      · simp only [Option.bind_eq_bind, Option.bind_eq_some_iff] at hs
        obtain ⟨context, -, request, -, hs⟩ := hs
        split at hs
        · cases hs
          exact .handled (List.forall_mem_nil _) rfl
        · simp only [Option.bind_eq_some_iff] at hs
          obtain ⟨s₁, herase, hs⟩ := hs
          have hsame := erase_inflight herase
          cases hs
          exact .handled (List.forall_mem_singleton.mpr rfl) hsame
    · cases hs
  | finish bret context =>
    simp only [ioService] at hs
    split at hs
    · unfold IOService.finish at hs
      split at hs
      · simp only [Option.bind_eq_bind, Option.bind_eq_some_iff] at hs
        obtain ⟨s₁, herase, hs⟩ := hs
        have hsame := (erase_inflight herase).trans (List.append_nil _).symm
        cases hs
        exact .silent 0 (List.forall_mem_singleton.mpr rfl) hsame
      · cases hs
        exact .silent 0 (List.forall_mem_singleton.mpr rfl) (List.append_nil _).symm
    · cases hs
  | take =>
    simp only [ioService] at hs
    split at hs
    · simp only [Option.bind_eq_bind, Option.bind_eq_some_iff] at hs
      obtain ⟨r, -, hs⟩ := hs
      split at hs <;> cases hs <;> exact .still _ rfl
    · cases hs
  | submit ret =>
    simp only [ioService] at hs
    split at hs
    · split at hs
      · cases hs
        exact .still _ rfl
      · split at hs <;> cases hs
        · exact .still _ rfl
        · exact .silent _ (List.forall_mem_nil _) rfl
    · cases hs
  | begin | wait ok | reap =>
    simp only [ioService] at hs
    split at hs <;> cases hs
    exact .still _ rfl

theorem pending_step {entries m_size : Nat} {s s' : IOService FileIo} (h : IoOk s) (hok : Matched s a)
    (hs : (ioService entries m_size FileIo).step s a = some (s', es)) :
    s.pending ++ posted es = handled es ++ s'.pending := by
  have hfifo := channels_conserve (ioService_serves h hok hs).fifo ()
  rwa [puts_ioObs, gots_ioObs] at hfifo

-- ---------------------------------------------------------------------------
-- Requests that are carried out
-- ---------------------------------------------------------------------------

def carriedOut (results : Nat → Option Int) (sqe : Sqe FileIo) : Option (Nat × IoContext FileIo × Int) :=
  (results sqe.uid).map fun res => (sqe.uid, sqe.context, res)

/-- The requests that are carried out and whose callbacks are to come. -/
def FileService.owed (s : FileService) : List (Nat × IoContext FileIo × Int) :=
  s.service.pending ++ s.service.inflight.filterMap (carriedOut s.results)

def FileService.ResultsOk (s : FileService) : Prop :=
  ∀ uid, (s.results uid).isSome → uid ∈ s.service.inflight.map Sqe.uid

def telling (buf : Nat → Bytes) (v : Nat × IoContext FileIo × Int) : Option (FileOp × List FileAnswer) :=
  v.2.1.job.map fun job => (.job v.1 job, callback job.1 v.2.2 (buf v.1))

section

variable {results : Nat → Option Int} {l : List (Sqe FileIo)}

theorem carriedOut_update (h : uid ∉ l.map Sqe.uid) (res? : Option Int) :
    l.filterMap (carriedOut (Function.update results uid res?)) = l.filterMap (carriedOut results) := by
  refine List.filterMap_congr fun sqe hsqe => ?_
  have hne : sqe.uid ≠ uid := by
    rintro rfl
    exact h (List.mem_map_of_mem hsqe)
  rw [carriedOut, carriedOut, Function.update_of_ne hne]

theorem carriedOut_none (h : ∀ uid ∈ l.map Sqe.uid, results uid = none) :
    l.filterMap (carriedOut results) = [] := by
  refine List.filterMap_eq_nil_iff.mpr fun sqe hsqe => ?_
  rw [carriedOut, h sqe.uid (List.mem_map_of_mem hsqe)]
  rfl

theorem carriedOut_perm (results : Nat → Option Int) (hsqe : l[k]? = some sqe) : l.filterMap (carriedOut results) ~
    (carriedOut results sqe).toList ++ (l.eraseIdx k).filterMap (carriedOut results) := by
  have hperm := (perm_eraseIdx hsqe).filterMap (carriedOut results)
  cases hcarried : carriedOut results sqe with
  | none => rwa [List.filterMap_cons_none hcarried] at hperm
  | some v => rwa [List.filterMap_cons_some hcarried] at hperm

theorem not_mem_eraseIdx (hnodup : (l.map Sqe.uid).Nodup) (hsqe : l[k]? = some sqe) :
    sqe.uid ∉ (l.eraseIdx k).map Sqe.uid := by
  have hperm := (perm_eraseIdx hsqe).map Sqe.uid
  rw [hperm.nodup_iff, List.map_cons, List.nodup_cons] at hnodup
  exact hnodup.1

theorem map_request_carriedOut (results : Nat → Option Int) (l : List (Sqe FileIo)) :
    (l.filterMap (carriedOut results)).map request <+ l.map Sqe.request := by
  induction l with
  | nil => exact .slnil
  | cons sqe l ih =>
    cases hres : results sqe.uid with
    | none =>
      rw [List.filterMap_cons_none (by rw [carriedOut, hres]; rfl)]
      exact .cons _ ih
    | some res =>
      rw [List.filterMap_cons_some (b := (sqe.uid, sqe.context, res)) (by rw [carriedOut, hres]; rfl)]
      exact .cons_cons _ ih

end

section

variable {s : FileService}

theorem inflight_nodup {s : IOService FileIo} (h : IoOk s) : (s.inflight.map Sqe.uid).Nodup := by
  refine h.custody.nodup.sublist (.map _ ?_)
  exact (List.sublist_append_right ..).trans (List.sublist_append_left ..)

theorem results_sq (h : IoOk s.service) (hresults : s.ResultsOk) (k : Nat) :
    ∀ uid ∈ (s.service.sq.take k).map Sqe.uid, s.results uid = none := by
  intro uid hmem
  have hnodup := h.custody.nodup
  rw [IOService.outstanding, List.map_append, List.map_append, List.append_assoc, List.nodup_append] at hnodup
  by_contra hsome
  have hmem' := hresults uid (Option.isSome_iff_ne_none.mpr hsome)
  exact hnodup.2.2 uid (List.map_subset _ (List.take_subset ..) hmem) uid (List.mem_append_left _ hmem') rfl

theorem owed_requests (s : FileService) : s.owed.map request <+~ s.service.outstanding.map Sqe.request := by
  have hpending : s.service.pending.map request = (s.service.completions.map Cqe.sqe).map Sqe.request := by
    rw [IOService.pending, List.map_map, List.map_map]
    rfl
  rw [FileService.owed, List.map_append, hpending, IOService.outstanding, List.map_append, List.map_append]
  refine List.perm_append_comm.subperm.trans (List.Sublist.subperm (.append ?_ (.refl _)))
  exact (map_request_carriedOut ..).trans (List.sublist_append_right ..)

theorem owed_ne (h : IoOk s.service) (hfree : s.service.m_fds_context uid = none) (hv : v ∈ s.owed) :
    v.1 ≠ uid := by
  rintro rfl
  obtain ⟨sqe, hsqe, heq⟩ := List.mem_map.mp ((owed_requests s).subset (List.mem_map_of_mem hv))
  have huid : sqe.uid = v.1 := congrArg Prod.fst heq
  have hlive := (h.custody.live sqe hsqe).entry
  rw [huid] at hlive
  cases hfree.symm.trans hlive

theorem owed_nodup (h : IoOk s.service) : (s.owed.map Prod.fst).Nodup := by
  obtain ⟨l, hperm, hsublist⟩ := owed_requests s
  have huids := hperm.map Prod.fst
  have hsub := hsublist.map Prod.fst
  rw [List.map_map] at huids hsub
  exact huids.nodup_iff.mp (h.custody.nodup.sublist hsub)

end

-- ---------------------------------------------------------------------------
-- Steps of the files
-- ---------------------------------------------------------------------------

section

variable {absolute : Int → Bytes → Bytes} {k₀ : IoKernel} {s s' : FileService} {out : List FileServiceEv}

inductive FilesStep (absolute : Int → Bytes → Bytes) (s s' : FileService) (out : List FileServiceEv) : Prop
  | quiet (hkernel : s'.kernel = s.kernel) (howed : s'.owed ~ s.owed)
    (hbuf : ∀ v ∈ s.owed, s'.buf v.1 = s.buf v.1) (hhandled : handled (ioEvents out) = [])
    (hanswers : answers out = []) (hoperations : operations out = [])
  | carried (v : Nat × IoContext FileIo × Int) (job : FileJob) (data : Bytes)
    (hjob : v.2.1.job = some job) (hkernel : s.kernel.carryOut absolute job v.2.2 = some (s'.kernel, data))
    (howed : s'.owed ~ v :: s.owed) (hown : s'.buf v.1 = put (s.buf v.1) 0 data)
    (hbuf : ∀ v ∈ s.owed, s'.buf v.1 = s.buf v.1) (hhandled : handled (ioEvents out) = [])
    (hanswers : answers out = []) (hoperations : operations out = [(.job v.1 job, callback job.1 v.2.2 data)])
  | called (v : Nat × IoContext FileIo × Int) (job : FileJob) (hjob : v.2.1.job = some job)
    (hkernel : s'.kernel = s.kernel) (howed : s.owed ~ v :: s'.owed) (hbuf : s'.buf = s.buf)
    (hhandled : handled (ioEvents out) = [v])
    (hanswers : answers out = [(.job v.1 job, callback job.1 v.2.2 (s.buf v.1))]) (hoperations : operations out = [])

/-- A step that takes no uid and begins no call. -/
structure FilesAdvance (absolute : Int → Bytes → Bytes) (s s' : FileService) (out : List FileServiceEv) : Prop where
  files : FilesStep absolute s s' out
  results : s'.ResultsOk
  calls : s'.calls = s.calls
  uids : s'._uid_u64_last = s._uid_u64_last

theorem jobs_append (l l' : List (FileOp × List FileAnswer)) : jobs (l ++ l') = jobs l ++ jobs l' :=
  List.filter_append ..

theorem immediates_append (l l' : List (FileOp × List FileAnswer)) :
    immediates (l ++ l') = immediates l ++ immediates l' :=
  List.filter_append ..

theorem ioEvents_append (tr tr' : List FileServiceEv) : ioEvents (tr ++ tr') = ioEvents tr ++ ioEvents tr' :=
  List.filterMap_append

theorem answers_append (tr tr' : List FileServiceEv) : answers (tr ++ tr') = answers tr ++ answers tr' :=
  List.filterMap_append

theorem operations_append (tr tr' : List FileServiceEv) : operations (tr ++ tr') = operations tr ++ operations tr' :=
  List.filterMap_append

theorem of_map_io (es : List (IoEv FileIo)) :
    ioEvents (es.map .io) = es ∧ answers (es.map .io) = [] ∧ operations (es.map .io) = [] := by
  simp [ioEvents, answers, operations, List.filterMap_map]

theorem react_silent {es : List (IoEv FileIo)} (h : ∀ e ∈ es, e.silent) : s.react es = some (s, es.map .io) := by
  induction es with
  | nil => rfl
  | cons e es ih =>
    have hes := ih fun e he => h e (.tail _ he)
    have hsilent := h e (.head _)
    cases e with
    | finished => simp [FileService.react, FileService.reactTo, hes]
    | accepted | stored | posted | handled => cases hsilent

theorem told_between (e : IoEv FileIo) (uid : Nat) (job : FileJob) (l : List FileAnswer) (es : List (IoEv FileIo)) :
    let out : List FileServiceEv := .io e :: [.told (.job uid job) l] ++ es.map .io
    ioEvents out = e :: es ∧ answers out = [(.job uid job, l)] ∧ operations out = [] := by
  obtain ⟨hio, hanswers, hoperations⟩ := of_map_io es
  dsimp only
  rw [ioEvents_append, answers_append, operations_append, hio, hanswers, hoperations]
  exact ⟨rfl, rfl, rfl⟩

/-- The bytes that the kernel puts into the request are those that the callback reads there. -/
theorem callback_put {k k' : IoKernel} (h : k.carryOut absolute job res = some (k', data)) (b : Bytes) :
    callback job.1 res (put b 0 data) = callback job.1 res data := by
  obtain ⟨req, io⟩ := job
  cases req with
  | READ =>
    simp only [callback]
    split
    · rename_i hres
      rw [IoKernel.carryOut, if_neg (by omega)] at h
      simp only [Option.bind_eq_bind, Option.bind_eq_some_iff] at h
      obtain ⟨d, -, all, -, h⟩ := h
      obtain ⟨hlen, h⟩ := Option.ite_none_left_eq_some.mp h
      cases h
      have hlen : res.toNat = (all.take res.toNat).length := by
        rw [List.length_take]
        omega
      rw [show put b 0 (all.take res.toNat) = all.take res.toNat ++ b.drop (all.take res.toNat).length by simp [put]]
      conv_lhs => rw [List.take_append_of_le_length (Nat.le_of_eq hlen)]
    · rfl
  | _ => rfl

theorem owed_still (hpending : service.pending = s.service.pending)
    (hinflight : service.inflight = s.service.inflight) : FileService.owed { s with service } = s.owed := by
  rw [FileService.owed, FileService.owed, hpending, hinflight]

theorem ResultsOk.still (h : s.ResultsOk) (hresults : s'.results = s.results)
    (hinflight : s'.service.inflight = s.service.inflight ++ new) : s'.ResultsOk := by
  intro uid hsome
  rw [hresults] at hsome
  rw [hinflight, List.map_append]
  exact List.mem_append_left _ (h uid hsome)

theorem reactTo_io {e : IoEv FileIo} (h : s.reactTo e = some (s', out)) :
    s'.service = s.service ∧ ioEvents out = [] := by
  cases e with
  | stored | accepted | finished =>
    cases h
    exact ⟨rfl, rfl⟩
  | posted uid context res =>
    obtain ⟨-, h⟩ := Option.ite_none_right_eq_some.mp h
    cases h
    exact ⟨rfl, rfl⟩
  | handled uid context res =>
    simp only [FileService.reactTo, Option.bind_eq_bind, Option.bind_eq_some_iff] at h
    obtain ⟨job, -, h⟩ := h
    cases h
    exact ⟨rfl, rfl⟩

theorem react_io {es : List (IoEv FileIo)} (h : s.react es = some (s', out)) :
    s'.service = s.service ∧ ioEvents out = es := by
  induction es generalizing s out with
  | nil =>
    cases h
    exact ⟨rfl, rfl⟩
  | cons e es ih =>
    simp only [FileService.react, Option.bind_eq_bind, Option.bind_eq_some_iff] at h
    obtain ⟨⟨s₁, told⟩, hfirst, ⟨s₂, outs⟩, hrest, h⟩ := h
    cases h
    obtain ⟨hsame, htold⟩ := reactTo_io hfirst
    obtain ⟨hservice, houts⟩ := ih hrest
    refine ⟨hservice.trans hsame, ?_⟩
    rw [List.cons_append, ← List.singleton_append, ioEvents_append, ioEvents_append, htold, houts]
    rfl

/-- A step of the files that the service takes is one of the service. -/
theorem drive_step (h : s.drive entries m_size a = some (s', out)) :
    (ioService entries m_size FileIo).step s.service a = some (s'.service, ioEvents out) := by
  simp only [FileService.drive, Option.bind_eq_bind, Option.bind_eq_some_iff] at h
  obtain ⟨⟨service, es⟩, hstep, h⟩ := h
  obtain ⟨hservice, hio⟩ := react_io h
  rw [hstep, hservice, hio]

/-- A CQE is for a request that is carried out, and its callback is to come before and after. -/
theorem owed_posted (h : IoOk s.service) (hsqe : s.service.inflight[k]? = some sqe)
    (hres : s.results sqe.uid = some res)
    (hpending : service.pending = s.service.pending ++ [(sqe.uid, sqe.context, res)])
    (hinflight : service.inflight = s.service.inflight.eraseIdx k) :
    FileService.owed { s with service, results := Function.update s.results sqe.uid none } ~ s.owed := by
  have hcarried := carriedOut_perm s.results hsqe
  rw [carriedOut, hres] at hcarried
  show service.pending ++ service.inflight.filterMap (carriedOut (Function.update s.results sqe.uid none)) ~ s.owed
  rw [hpending, hinflight, carriedOut_update (not_mem_eraseIdx (inflight_nodup h) hsqe), List.append_assoc]
  exact hcarried.symm.append_left _

theorem ResultsOk.posted (h : s.ResultsOk) (hsqe : s.service.inflight[k]? = some sqe)
    (hinflight : service.inflight = s.service.inflight.eraseIdx k) :
    FileService.ResultsOk { s with service, results := Function.update s.results sqe.uid none } := by
  intro uid hsome
  change (Function.update s.results sqe.uid none uid).isSome at hsome
  rw [Function.update_apply] at hsome
  split at hsome
  · cases hsome
  · rename_i hne
    have hmem := ((perm_eraseIdx hsqe).map Sqe.uid).mem_iff.mp (h uid hsome)
    rw [← hinflight] at hmem
    exact (List.mem_cons.mp hmem).resolve_left hne

theorem drive_advances (absolute : Int → Bytes → Bytes) (h : IoOk s.service) (hresults : s.ResultsOk)
    (hok : Matched s.service a) (hs : s.drive entries m_size a = some (s', out)) : FilesAdvance absolute s s' out := by
  simp only [FileService.drive, Option.bind_eq_bind, Option.bind_eq_some_iff] at hs
  obtain ⟨⟨service, es⟩, hstep, hs⟩ := hs
  have hpending := pending_step h hok hstep
  cases io_turn hok hstep with
  | accepted hinflight =>
    cases hs
    have hsame : service.pending = s.service.pending := by simpa [posted, handled] using hpending.symm
    exact ⟨.quiet rfl (.of_eq (owed_still hsame hinflight)) (fun _ _ => rfl) rfl rfl rfl,
      ResultsOk.still hresults rfl (hinflight.trans (List.append_nil _).symm), rfl, rfl⟩
  | stored hfree hinflight =>
    cases hs
    have hsame : service.pending = s.service.pending := by simpa [posted, handled] using hpending.symm
    refine ⟨.quiet rfl (.of_eq (owed_still hsame hinflight)) (fun v hv => ?_) rfl rfl rfl,
      ResultsOk.still hresults rfl (hinflight.trans (List.append_nil _).symm), rfl, rfl⟩
    exact Function.update_of_ne (owed_ne h hfree hv) ..
  | silent k hes hinflight =>
    rw [react_silent hes] at hs
    cases hs
    obtain ⟨hposted, hhandled, -⟩ := silent_spec hes
    obtain ⟨hio, hanswers, hoperations⟩ := of_map_io es
    rw [hposted, hhandled, List.append_nil, List.nil_append] at hpending
    refine ⟨.quiet rfl (.of_eq ?_) (fun _ _ => rfl) (hio.symm ▸ hhandled) hanswers hoperations,
      ResultsOk.still hresults rfl hinflight, rfl, rfl⟩
    show service.pending ++ service.inflight.filterMap (carriedOut s.results) = s.owed
    rw [hinflight, List.filterMap_append, carriedOut_none (results_sq h hresults k), List.append_nil, ← hpending]
    rfl
  | @posted _ k sqe res hsqe hinflight =>
    simp only [FileService.react, FileService.reactTo, Option.bind_eq_bind, Option.bind_eq_some_iff, Option.pure_def,
      Option.some.injEq] at hs
    obtain ⟨_, hreact, _, rfl, hs⟩ := hs
    obtain ⟨hres, hreact⟩ := Option.ite_none_right_eq_some.mp hreact
    cases hreact
    cases hs
    have hnew : service.pending = s.service.pending ++ [(sqe.uid, sqe.context, res)] := by
      simpa [posted, handled] using hpending.symm
    exact ⟨.quiet rfl (owed_posted h hsqe hres hnew hinflight) (fun _ _ => rfl) rfl rfl rfl,
      ResultsOk.posted hresults hsqe hinflight, rfl, rfl⟩
  | @handled _ uid context res rest hes hinflight =>
    simp only [FileService.react, FileService.reactTo, Option.bind_eq_bind, Option.bind_eq_some_iff, Option.pure_def,
      Option.some.injEq, react_silent hes] at hs
    obtain ⟨_, ⟨job, hjob, rfl⟩, _, rfl, hs⟩ := hs
    cases hs
    obtain ⟨hposted, hhandled, -⟩ := silent_spec hes
    obtain ⟨hio, hanswers, hoperations⟩ :=
      told_between (.handled uid context res) uid job (callback job.1 res (s.buf uid)) rest
    have hhead : s.service.pending ++ posted rest = (uid, context, res) :: handled rest ++ service.pending := hpending
    rw [hposted, hhandled, List.append_nil] at hhead
    have hshown : handled (.handled uid context res :: rest) = [(uid, context, res)] :=
      congrArg ((uid, context, res) :: ·) hhandled
    refine ⟨.called (uid, context, res) job hjob rfl (.of_eq ?_) rfl ?_ hanswers hoperations,
      ResultsOk.still hresults rfl (hinflight.trans (List.append_nil _).symm), rfl, rfl⟩
    · rw [FileService.owed, hhead, FileService.owed, hinflight]
      rfl
    · rw [hio, hshown]

theorem carryOut_advances {k : Nat} {sqe : Sqe FileIo} (h : IoOk s.service) (hresults : s.ResultsOk)
    (hsqe : s.service.inflight[k]? = some sqe) (hs : s.carryOut absolute sqe res = some (s', out)) :
    s'.service = s.service ∧ ioEvents out = [] ∧ FilesAdvance absolute s s' out := by
  obtain ⟨hnone, hs⟩ := Option.ite_none_left_eq_some.mp hs
  simp only [Option.bind_eq_bind, Option.bind_eq_some_iff] at hs
  obtain ⟨job, hjob, ⟨kernel, data⟩, hkernel, hs⟩ := hs
  cases hs
  have hnone : s.results sqe.uid = none := by simpa using hnone
  have hnot := not_mem_eraseIdx (inflight_nodup h) hsqe
  have hbefore := carriedOut_perm s.results hsqe
  have hafter := carriedOut_perm (Function.update s.results sqe.uid (some res)) hsqe
  rw [carriedOut, hnone] at hbefore
  rw [carriedOut, Function.update_self, carriedOut_update hnot] at hafter
  have howed : FileService.owed { s with
      kernel
      buf := Function.update s.buf sqe.uid (put (s.buf sqe.uid) 0 data)
      results := Function.update s.results sqe.uid (some res) } ~ (sqe.uid, sqe.context, res) :: s.owed :=
    ((hafter.trans (hbefore.symm.cons _)).append_left _).trans List.perm_middle
  refine ⟨rfl, rfl, ⟨.carried (sqe.uid, sqe.context, res) job data hjob hkernel howed (Function.update_self ..) ?_ rfl
    rfl rfl, ?_, rfl, rfl⟩⟩
  · intro v hv
    refine Function.update_of_ne ?_ ..
    have hnodup := (howed.map Prod.fst).nodup_iff.mp (owed_nodup h)
    intro heq
    have hmem := List.mem_map_of_mem (f := Prod.fst) hv
    rw [heq] at hmem
    exact (List.nodup_cons.mp hnodup).1 hmem
  · intro uid hsome
    change (Function.update s.results sqe.uid (some res) uid).isSome at hsome
    rw [Function.update_apply] at hsome
    split at hsome
    · rename_i heq
      rw [heq]
      exact List.mem_map_of_mem (List.mem_of_getElem? hsqe)
    · exact hresults uid hsome

/-- What the operations told is what the kernel alone tells in that order; the callbacks of the requests that are
owed are to come. -/
structure Accounted (absolute : Int → Bytes → Bytes) (k₀ : IoKernel) (tr : List FileServiceEv) (s : FileService) :
    Prop where
  serial : Serial (ioKernel absolute k₀) k₀ (operations tr) s.kernel
  immediate : immediates (operations tr) = immediates (answers tr)
  callbacks : jobs (operations tr) ~ jobs (answers tr) ++ s.owed.filterMap (telling s.buf)
  told : (jobs (answers tr)).map Prod.fst = (handled (ioEvents tr)).filterMap fun v => v.2.1.job.map (.job v.1)

theorem telling_keep {buf buf' : Nat → Bytes} {vs : List (Nat × IoContext FileIo × Int)}
    (hbuf : ∀ v ∈ vs, buf' v.1 = buf v.1) : vs.filterMap (telling buf') = vs.filterMap (telling buf) := by
  refine List.filterMap_congr fun v hv => ?_
  rw [telling, telling, hbuf v hv]

theorem Accounted.congr (h : Accounted absolute k₀ tr s) (hkernel : s'.kernel = s.kernel) (howed : s'.owed = s.owed)
    (hbuf : s'.buf = s.buf) : Accounted absolute k₀ tr s' where
  serial := hkernel ▸ h.serial
  immediate := h.immediate
  callbacks := by
    rw [howed, hbuf]
    exact h.callbacks
  told := h.told

theorem Accounted.advance (h : Accounted absolute k₀ tr s) (hs : FilesStep absolute s s' out) :
    Accounted absolute k₀ (tr ++ out) s' := by
  obtain ⟨hserial, himmediate, hcallbacks, htold⟩ := h
  cases hs with
  | quiet hkernel howed hbuf hhandled hanswers hoperations =>
    refine ⟨?_, ?_, ?_, ?_⟩
    · rw [operations_append, hoperations, List.append_nil, hkernel]
      exact hserial
    · rw [operations_append, answers_append, hoperations, hanswers, List.append_nil, List.append_nil]
      exact himmediate
    · rw [operations_append, answers_append, hoperations, hanswers, List.append_nil, List.append_nil]
      refine hcallbacks.trans (.append_left _ ?_)
      rw [← telling_keep hbuf]
      exact (howed.filterMap _).symm
    · rw [answers_append, ioEvents_append, handled_append, hanswers, hhandled, List.append_nil, List.append_nil]
      exact htold
  | carried v job data hjob hkernel howed hown hbuf hhandled hanswers hoperations =>
    have hstep : (ioKernel absolute k₀).step s.kernel (.job v.1 job, v.2.2) =
        some (s'.kernel, callback job.1 v.2.2 data) := by
      simp only [ioKernel, hkernel]
      rfl
    have htelling : telling s'.buf v = some (.job v.1 job, callback job.1 v.2.2 data) := by
      rw [telling, hjob, hown, Option.map_some, callback_put hkernel]
    refine ⟨?_, ?_, ?_, ?_⟩
    · rw [operations_append, hoperations]
      exact serial_append.mpr ⟨_, hserial, .one hstep⟩
    · rw [operations_append, answers_append, hoperations, hanswers, List.append_nil, immediates_append]
      exact (List.append_nil _).trans himmediate
    · rw [operations_append, answers_append, hoperations, hanswers, List.append_nil, jobs_append]
      have hnew := howed.filterMap (telling s'.buf)
      rw [List.filterMap_cons_some htelling, telling_keep hbuf] at hnew
      calc jobs (operations tr) ++ [(.job v.1 job, callback job.1 v.2.2 data)]
        _ ~ jobs (answers tr) ++ s.owed.filterMap (telling s.buf) ++ [(.job v.1 job, callback job.1 v.2.2 data)] :=
          hcallbacks.append_right _
        _ = jobs (answers tr) ++ (s.owed.filterMap (telling s.buf) ++ [(.job v.1 job, callback job.1 v.2.2 data)]) :=
          List.append_assoc ..
        _ ~ jobs (answers tr) ++ s'.owed.filterMap (telling s'.buf) :=
          ((List.perm_append_singleton ..).trans hnew.symm).append_left _
    · rw [answers_append, ioEvents_append, handled_append, hanswers, hhandled, List.append_nil, List.append_nil]
      exact htold
  | called v job hjob hkernel howed hbuf hhandled hanswers hoperations =>
    have htelling : telling s.buf v = some (.job v.1 job, callback job.1 v.2.2 (s.buf v.1)) := by
      rw [telling, hjob]
      rfl
    refine ⟨?_, ?_, ?_, ?_⟩
    · rw [operations_append, hoperations, List.append_nil, hkernel]
      exact hserial
    · rw [operations_append, answers_append, hoperations, hanswers, List.append_nil, immediates_append]
      exact himmediate.trans (List.append_nil _).symm
    · have hold := howed.filterMap (telling s.buf)
      rw [List.filterMap_cons_some htelling] at hold
      rw [operations_append, answers_append, hoperations, hanswers, List.append_nil, jobs_append, hbuf,
        List.append_assoc]
      exact hcallbacks.trans (hold.append_left _)
    · rw [answers_append, ioEvents_append, handled_append, hanswers, hhandled, jobs_append, List.map_append, htold,
        List.filterMap_append]
      simp [jobs, FileOp.isJob, hjob]

theorem Accounted.immediately (h : Accounted absolute k₀ tr s)
    (hop : s.kernel.immediately absolute op res = some (kernel, es)) :
    Accounted absolute k₀ (tr ++ [.told op es]) { s with kernel } := by
  obtain ⟨hserial, himmediate, hcallbacks, htold⟩ := h
  have hstep : (ioKernel absolute k₀).step s.kernel (op, res) = some (kernel, es) := by
    cases op with
    | job uid job => cases hop
    | _ => exact hop
  have hjob : op.isJob = false := by
    cases op with
    | job uid job => cases hop
    | _ => rfl
  have hjobs (l : List (FileOp × List FileAnswer)) : jobs (l ++ [(op, es)]) = jobs l := by
    simp [jobs, hjob]
  have hoperations : operations (tr ++ [.told op es]) = operations tr ++ [(op, es)] := by
    rw [operations_append]
    simp [operations, hjob]
  have hanswers : answers (tr ++ [.told op es]) = answers tr ++ [(op, es)] := answers_append ..
  have hio : ioEvents (tr ++ [.told op es]) = ioEvents tr := (ioEvents_append ..).trans (List.append_nil _)
  refine ⟨?_, ?_, ?_, ?_⟩
  · rw [hoperations]
    exact serial_append.mpr ⟨_, hserial, .one hstep⟩
  · rw [hoperations, hanswers, immediates_append, immediates_append, himmediate]
  · rw [hoperations, hanswers, hjobs, hjobs]
    exact hcallbacks
  · rw [hanswers, hjobs, hio]
    exact htold

-- ---------------------------------------------------------------------------
-- Runs
-- ---------------------------------------------------------------------------

def uids (tr : List FileServiceEv) (s : FileService) : List Nat :=
  (acceptedRequests (ioEvents tr)).map Prod.fst ++ s.calls.map Prod.fst

structure FilesRun (entries m_size : Nat) (absolute : Int → Bytes → Bytes) (k₀ : IoKernel)
    (tr : List FileServiceEv) (s : FileService) : Prop where
  service : (ioService entries m_size FileIo).RunIf Matched (ioEvents tr) s.service
  accounted : Accounted absolute k₀ tr s
  results : s.ResultsOk
  used : ∀ uid ∈ uids tr s, uid < s._uid_u64_last.toNat
  nodup : (uids tr s).Nodup

theorem FilesRun.ok (h : FilesRun entries m_size absolute k₀ tr s) : IoOk s.service :=
  (ioService_refines entries m_size FileIo).run_inv h.service

/-- Each request has a uid of its own, so none is stored under one that has an entry. -/
theorem FilesRun.matched (h : FilesRun entries m_size absolute k₀ tr s) (a : IoAct FileIo)
    (ha : ∀ uid context, a ≠ .submitRequest uid context) : Matched s.service a := by
  cases a with
  | submitRequest uid context => exact absurd rfl (ha uid context)
  | runFn a =>
    intro r hr
    have hqueued : r ∈ s.service.queued := List.mem_append_left _ (List.mem_of_mem_head? hr)
    exact entry_of_queued h.service (List.nodup_append.mp h.nodup).1 hqueued
  | _ => trivial

theorem FilesRun.create (h : FilesRun entries m_size absolute k₀ tr s) (hleft : s._uid_u64_last.toNat + 1 < 2 ^ 64) :
    (s._uid_u64_last + 1).toNat = s._uid_u64_last.toNat + 1 ∧ s._uid_u64_last.toNat ∉ uids tr s := by
  refine ⟨?_, fun hmem => Nat.lt_irrefl _ (h.used _ hmem)⟩
  rw [BitVec.toNat_add]
  exact Nat.mod_eq_of_lt hleft

theorem FilesRun.drive (h : FilesRun entries m_size absolute k₀ tr s)
    (ha : ∀ uid context, a ≠ .submitRequest uid context) (hs : s.drive entries m_size a = some (s', out)) :
    FilesRun entries m_size absolute k₀ (tr ++ out) s' := by
  have hok := h.matched a ha
  have hstep := drive_step hs
  obtain ⟨hfiles, hresults, hcalls, huids⟩ := drive_advances absolute h.ok h.results hok hs
  have hsame : uids (tr ++ out) s' = uids tr s := by
    rw [uids, uids, ioEvents_append, acceptedRequests_append, (io_turn hok hstep).accepts ha, List.append_nil, hcalls]
  refine ⟨?_, h.accounted.advance hfiles, hresults, ?_, ?_⟩
  · rw [ioEvents_append]
    exact .step h.service hok hstep
  · rw [hsame, huids]
    exact h.used
  · rw [hsame]
    exact h.nodup

theorem FilesRun.submit (h : FilesRun entries m_size absolute k₀ tr s) (hcall : s.calls[i]? = some (uid, c))
    (hs : FileService.drive entries m_size { s with calls := s.calls.eraseIdx i }
      (.submitRequest uid (c.context uid)) = some (s', out)) :
    FilesRun entries m_size absolute k₀ (tr ++ out) s' := by
  have hok : Matched s.service (.submitRequest uid (c.context uid)) := rfl
  have hstep := drive_step hs
  obtain ⟨hfiles, hresults, hcalls, huids⟩ := drive_advances absolute
    (s := { s with calls := s.calls.eraseIdx i }) h.ok h.results hok hs
  have hperm : uids (tr ++ out) s' ~ uids tr s := by
    have herase := (perm_eraseIdx hcall).map Prod.fst
    have haccepts : acceptedRequests (ioEvents out) = [(uid, c.context uid)] := by
      rw [← (Prod.mk.inj (Option.some.inj hstep)).2]
      rfl
    rw [uids, uids, ioEvents_append, acceptedRequests_append, haccepts, hcalls, List.map_append, List.append_assoc]
    exact herase.symm.append_left _
  have haccounted : Accounted absolute k₀ tr { s with calls := s.calls.eraseIdx i } := h.accounted.congr rfl rfl rfl
  refine ⟨?_, haccounted.advance hfiles, hresults, fun uid' hmem => ?_, hperm.nodup_iff.mpr h.nodup⟩
  · rw [ioEvents_append]
    exact .step h.service hok hstep
  · rw [huids]
    exact h.used uid' (hperm.mem_iff.mp hmem)

theorem fileService_step (h : FilesRun entries m_size absolute k₀ tr s) (hleft : s.UidsLeft a)
    (hs : (fileService entries m_size absolute k₀).step s a = some (s', out)) :
    FilesRun entries m_size absolute k₀ (tr ++ out) s' := by
  cases a with
  | call c =>
    cases hs
    obtain ⟨hnext, hnew⟩ := h.create hleft
    rw [List.append_nil]
    have hsame : uids tr { s with
        _uid_u64_last := s._uid_u64_last + 1
        calls := s.calls ++ [(s._uid_u64_last.toNat, c)] } = uids tr s ++ [s._uid_u64_last.toNat] := by
      simp [uids]
    refine ⟨h.service, h.accounted.congr rfl rfl rfl, h.results, fun uid hmem => ?_, ?_⟩
    · show uid < (s._uid_u64_last + 1).toNat
      rw [hnext]
      rcases List.mem_append.mp (hsame ▸ hmem) with hmem | hmem
      · exact Nat.lt_succ_of_lt (h.used uid hmem)
      · exact List.mem_singleton.mp hmem ▸ Nat.lt_succ_self _
    · refine hsame ▸ (List.perm_append_singleton ..).nodup_iff.mpr (List.nodup_cons.mpr ⟨hnew, h.nodup⟩)
  | create_uid_u64 =>
    cases hs
    obtain ⟨hnext, -⟩ := h.create hleft
    rw [List.append_nil]
    refine ⟨h.service, h.accounted.congr rfl rfl rfl, h.results, fun uid hmem => ?_, h.nodup⟩
    show uid < (s._uid_u64_last + 1).toNat
    rw [hnext]
    exact Nat.lt_succ_of_lt (h.used uid hmem)
  | submit i =>
    simp only [fileService, Option.bind_eq_bind, Option.bind_eq_some_iff] at hs
    obtain ⟨⟨uid, c⟩, hcall, hs⟩ := hs
    exact h.submit hcall hs
  | immediate op res =>
    simp only [fileService, Option.bind_eq_bind, Option.bind_eq_some_iff] at hs
    obtain ⟨⟨kernel, es⟩, hop, hs⟩ := hs
    cases hs
    have hio : ioEvents (tr ++ [.told op es]) = ioEvents tr := (ioEvents_append ..).trans (List.append_nil _)
    refine ⟨hio.symm ▸ h.service, h.accounted.immediately hop, h.results, fun uid hmem => h.used uid ?_, ?_⟩
    · rwa [uids, hio] at hmem
    · rw [uids, hio]
      exact h.nodup
  | carryOut k res =>
    simp only [fileService, Option.bind_eq_bind, Option.bind_eq_some_iff] at hs
    obtain ⟨sqe, hsqe, hs⟩ := hs
    obtain ⟨hservice, hio, hfiles, hresults, hcalls, huids⟩ := carryOut_advances h.ok h.results hsqe hs
    have hio' : ioEvents (tr ++ out) = ioEvents tr := by rw [ioEvents_append, hio, List.append_nil]
    have hsame : uids (tr ++ out) s' = uids tr s := by rw [uids, uids, hio', hcalls]
    refine ⟨?_, h.accounted.advance hfiles, hresults, ?_, hsame ▸ h.nodup⟩
    · rw [hio', hservice]
      exact h.service
    · rw [hsame, huids]
      exact h.used
  | service a =>
    cases a with
    | submitRequest uid context => cases hs
    | _ =>
      refine h.drive ?_ hs
      intro uid context ha
      cases ha

theorem fileService_run (h : (fileService entries m_size absolute k₀).RunIf FileService.UidsLeft tr s) :
    FilesRun entries m_size absolute k₀ tr s := by
  refine h.invariant (I := FilesRun entries m_size absolute k₀) ?_ fun tr s a s' out _ ih hleft hs =>
    fileService_step ih hleft hs
  refine ⟨.refl, ⟨.nil, rfl, .refl _, rfl⟩, ?_, ?_, List.nodup_nil⟩
  · intro uid hsome
    cases hsome
  · intro uid hmem
    cases hmem

/-- What holds of the operations of a run. The order in which the kernel carried them out is a run of the kernel
alone, with the immediate ones as they came. The callbacks that have been called told what this run tells,
those of the other requests that are carried out are to come, and each of these requests was accepted
under a uid of its own. -/
structure Explains (absolute : Int → Bytes → Bytes) (k₀ : IoKernel) (tr : List FileServiceEv) (s : FileService) :
    Prop where
  serial : Serial (ioKernel absolute k₀) k₀ (operations tr) s.kernel
  immediate : immediates (operations tr) = immediates (answers tr)
  callbacks : ∃ rest, jobs (operations tr) ~ jobs (answers tr) ++ rest ∧ rest.length ≤ s.owed.length
  requests : (jobs (operations tr)).map Prod.fst <+~ asked tr
  distinct : (asked tr).Nodup

theorem handled_subperm (h : FilesRun entries m_size absolute k₀ tr s) :
    (handled (ioEvents tr) ++ s.owed).map request <+~ acceptedRequests (ioEvents tr) := by
  have howed : (handled (ioEvents tr)).map request ++ s.owed.map request <+~
      (handled (ioEvents tr)).map request ++ s.service.outstanding.map Sqe.request :=
    (List.subperm_append_left _).mpr (owed_requests s)
  rw [queue_eq h.service, List.map_append]
  refine howed.trans (List.perm_append_comm.subperm.trans ?_)
  refine (List.sublist_append_left ..).subperm.trans ((ring_perm h.service).subperm.trans ?_)
  exact (List.sublist_append_left ..).subperm

theorem telling_job {buf : Nat → Bytes} (vs : List (Nat × IoContext FileIo × Int)) :
    (vs.filterMap (telling buf)).map Prod.fst = (vs.map request).filterMap fun r => r.2.job.map (.job r.1) := by
  induction vs with
  | nil => rfl
  | cons v vs ih =>
    obtain ⟨uid, context, res⟩ := v
    cases hjob : context.job with
    | none => simpa [telling, request, hjob] using ih
    | some job => simpa [telling, request, hjob] using ih

theorem FilesRun.explains (h : FilesRun entries m_size absolute k₀ tr s) : Explains absolute k₀ tr s := by
  obtain ⟨hserial, himmediate, hcallbacks, htold⟩ := h.accounted
  refine ⟨hserial, himmediate, ⟨_, hcallbacks, List.length_filterMap_le ..⟩, ?_, ?_⟩
  · have hops := hcallbacks.map Prod.fst
    rw [List.map_append, htold, telling_job] at hops
    obtain ⟨l, hperm, hsublist⟩ := handled_subperm h
    let asks (r : Nat × IoContext FileIo) : Option FileOp := r.2.job.map (.job r.1)
    have hdone := hperm.filterMap asks
    rw [List.map_append, List.filterMap_append, List.filterMap_map] at hdone
    exact ⟨_, hdone.trans hops.symm, hsublist.filterMap asks⟩
  · have huids := (List.nodup_append.mp h.nodup).1
    rw [List.nodup_iff_pairwise_ne, List.pairwise_map] at huids
    refine huids.filterMap _ ?_
    rintro r r' hne op hop op' hop' rfl
    obtain ⟨job, -, rfl⟩ := Option.map_eq_some_iff.mp hop
    obtain ⟨job', -, hsame⟩ := Option.map_eq_some_iff.mp hop'
    exact hne (FileOp.job.inj hsame).1.symm

end

/-- The order in which the kernel carried them out explains all that the operations told, whatever the
interleaving of the callers, the service and the kernel; and what they tell later is explained by what comes
after it. -/
theorem io_files_serial (entries m_size : Nat) (absolute : Int → Bytes → Bytes) (k₀ : IoKernel)
    (tr : List FileServiceEv) (s : FileService)
    (h : (fileService entries m_size absolute k₀).RunIf FileService.UidsLeft tr s) : Explains absolute k₀ tr s ∧
      ∀ tr' s', (fileService entries m_size absolute k₀).Steps FileService.UidsLeft s tr' s' →
        Explains absolute k₀ (tr ++ tr') s' ∧ operations (tr ++ tr') = operations tr ++ operations tr' := by
  refine ⟨(fileService_run h).explains, fun tr' s' h' => ⟨?_, operations_append ..⟩⟩
  exact (fileService_run (h.trans h')).explains

def openFile : IoKernel where
  disk name := if name = [102] then some [] else none
  fds fd := if fd = 3 then some ⟨[102], 2, 0⟩ else none

def twoWrites : List FileServiceAct :=
  let first : FileCall := .async_write 3 [72, 105]
  let second : FileCall := .async_write 3 [33]
  let tick : List FileServiceAct := [.service .begin, .service .take, .service .take, .service .take, .service .take]
  [.call first, .call second, .submit 0, .submit 0] ++ tick ++
    [.service (.runFn 100), .service (.runFn 200), .service (.submit (some 2)), .carryOut 0 2, .carryOut 1 1,
      .service (.wait true), .service (.complete 1 1), .service (.complete 0 2), .service .reap, .service .handle,
      .service (.finish true (second.context 1001)), .service .handle,
      .service (.finish true (first.context 1000)), .service .handle,
      .call (.async_read 3), .submit 0] ++ tick ++
    [.service (.runFn 100), .service (.submit (some 1)), .carryOut 0 2, .service (.wait true),
      .service (.complete 0 2), .service .reap, .service .handle]

def twoWritten : List (FileOp × List FileAnswer) :=
  [(.job 1000 (FileCall.async_write 3 [72, 105]).job, [.onWrite 2]),
    (.job 1001 (FileCall.async_write 3 [33]).job, [.onWrite 1]),
    (.job 1002 (FileCall.async_read 3).job, [.onRead [33, 105] 2])]

instance (s : FileService) : (a : FileServiceAct) → Decidable (s.UidsLeft a)
  | .call _ | .create_uid_u64 => inferInstanceAs (Decidable (s._uid_u64_last.toNat + 1 < 2 ^ 64))
  | .submit _ | .immediate .. | .carryOut .. | .service _ => .isTrue trivial

set_option maxRecDepth 8000 in
/-- The callback of the second write comes first. -/
theorem twoWrites_run : ∃ tr s, (fileService 8 8 (fun _ path => path) openFile).RunIf FileService.UidsLeft tr s ∧
    operations tr = twoWritten ∧ (answers tr).map Prod.snd = [[.onWrite 1], [.onWrite 2], [.onRead [33, 105] 2]] := by
  have hr : (((fileService 8 8 (fun _ path => path) openFile).only FileService.UidsLeft).replay
    (fileService 8 8 (fun _ path => path) openFile).init twoWrites).isSome := rfl
  have hrun := Machine.steps_of_replay_only (Option.some_get hr).symm
  exact ⟨_, _, hrun, rfl, rfl⟩

theorem io_files_serial_two : ∃ tr s, (fileService 8 8 (fun _ path => path) openFile).RunIf FileService.UidsLeft tr s ∧
    operations tr = twoWritten ∧ (answers tr).map Prod.snd = [[.onWrite 1], [.onWrite 2], [.onRead [33, 105] 2]] ∧
      Explains (fun _ path => path) openFile tr s := by
  obtain ⟨tr, s, hrun, hoperations, hanswers⟩ := twoWrites_run
  exact ⟨tr, s, hrun, hoperations, hanswers, (io_files_serial 8 8 (fun _ path => path) openFile tr s hrun).1⟩

end Andren.Network
