import Andren.Base.ArchiveDecompress
import Andren.Network.IoServiceMove
import Andren.Network.UnixAddress

/-!
# The requests of a file

`async_write`, `async_read` and `async_close` take the descriptor out of the
file before they ask the service, and a service that was moved from refuses:
the descriptor is lost with the request (`io_file_refused_iff`). `async_open`
copies the path into an array of 256 bytes and ends it after as many bytes as
it copied, which is beyond the array for a path of 256 bytes or more
(`async_open_names_iff`).
-/

namespace Andren.Network

open Base

/-- What a request of `io_file` says besides its kind and uid; what the call
does not set is zero. `path` is the memory from the path on. -/
structure FileIo where
  fd : Int
  data : Bytes
  dfd : Int
  flags : BitVec 32
  mode : BitVec 32
  path : Bytes

/-- The bytes of the path array, and those from its beginning to the end of the request. -/
def sizeofPath : Nat := 256

def sizeofFromPath : Nat := 992

def FileIo.zero : FileIo := ⟨0, [], 0, 0, 0, List.replicate sizeofFromPath 0⟩

-- ---------------------------------------------------------------------------
-- Requests for an open file
-- ---------------------------------------------------------------------------

def take_handle (m_fd : Int) : Int × Int := (m_fd, -1)

def submitHandle (w : Services FileIo) (ioservice uid : Nat) (m_fd : Int) (req : Req) (io : FileIo) :
    Option (Services FileIo × Int × Bool) := do
  let (fd, m_fd) := take_handle m_fd
  let (w, ret) ← w.submitRequest ioservice uid ⟨some { io with fd }, some ⟨req, uid⟩⟩
  pure (w, m_fd, ret)

def async_write (w : Services FileIo) (ioservice uid : Nat) (m_fd : Int) (data : Bytes) :
    Option (Services FileIo × Int × Bool) :=
  submitHandle w ioservice uid m_fd .WRITE { FileIo.zero with data }

def async_read (w : Services FileIo) (ioservice uid : Nat) (m_fd : Int) : Option (Services FileIo × Int × Bool) :=
  submitHandle w ioservice uid m_fd .READ .zero

def async_close (w : Services FileIo) (ioservice uid : Nat) (m_fd : Int) : Option (Services FileIo × Int × Bool) :=
  submitHandle w ioservice uid m_fd .CLOSE .zero

/-- If the call returns false, the file has the descriptor it had, and no service
has got a request. -/
def KeepsFile (w : Services FileIo) (m_fd : Int) (call : Option (Services FileIo × Int × Bool)) : Prop :=
  ∀ w' m_fd', call = some (w', m_fd', false) → m_fd' = m_fd ∧ w' = w

def ServiceObject.accepts {D : Type} (s : ServiceObject D) : Bool :=
  s.m_uring.isSome && s.m_request_submit_queue.isSome

theorem submitRequest_accepts {D : Type} {w : Services D} {s : ServiceObject D} (hs : w.objects o = some s)
    (uid : Nat) (context : IoContext D) : ∃ w', w.submitRequest o uid context = some (w', s.accepts) ∧
      (s.accepts = false → w' = w) := by
  simp only [Services.submitRequest, hs, Option.bind_eq_bind, Option.bind_some, ServiceObject.accepts]
  cases s.m_uring with
  | none => exact ⟨w, rfl, fun _ => rfl⟩
  | some r => cases s.m_request_submit_queue with
    | none => exact ⟨w, rfl, fun _ => rfl⟩
    | some fns => exact ⟨_, rfl, fun h => by cases h⟩

theorem submitRequest_queues {D : Type} {w w' : Services D} {context : IoContext D}
    (h : w.submitRequest o uid context = some (w', true)) :
    ∃ s fns, w'.objects o = some s ∧ s.m_request_submit_queue = some (fns ++ [⟨o, uid, context⟩]) := by
  obtain ⟨s, hs, h⟩ := Option.bind_eq_some_iff.mp h
  split at h <;> cases h
  exact ⟨_, _, Services.set_self .., rfl⟩

theorem submitHandle_iff {w : Services FileIo} {s : ServiceObject FileIo} (hs : w.objects ioservice = some s)
    (uid : Nat) (m_fd : Int) (req : Req) (io : FileIo) :
    KeepsFile w m_fd (submitHandle w ioservice uid m_fd req io) ↔ s.accepts = true ∨ m_fd = -1 := by
  obtain ⟨w', hsubmit, hsame⟩ := submitRequest_accepts hs uid ⟨some { io with fd := m_fd }, some ⟨req, uid⟩⟩
  have hcall : submitHandle w ioservice uid m_fd req io = some (w', -1, s.accepts) := by
    simp only [submitHandle, take_handle, hsubmit, Option.bind_eq_bind, Option.bind_some, Option.pure_def]
  rw [hcall]
  cases haccepts : s.accepts with
  | true => exact iff_of_true nofun (.inl rfl)
  | false =>
    constructor
    · intro hkeeps
      exact .inr (hkeeps w' (-1) rfl).1.symm
    · rintro (h | rfl) w₁ fd₁ h₁
      · cases h
      · cases h₁
        exact ⟨rfl, hsame haccepts⟩

/-- A refused call keeps the file as it was just when there is no refusal, or
nothing to keep. -/
theorem io_file_refused_iff (w : Services FileIo) (ioservice : Nat) (s : ServiceObject FileIo)
    (hs : w.objects ioservice = some s) (uid : Nat) (m_fd : Int) (data : Bytes) :
    (KeepsFile w m_fd (async_write w ioservice uid m_fd data) ↔ s.accepts = true ∨ m_fd = -1) ∧
      (KeepsFile w m_fd (async_read w ioservice uid m_fd) ↔ s.accepts = true ∨ m_fd = -1) ∧
      (KeepsFile w m_fd (async_close w ioservice uid m_fd) ↔ s.accepts = true ∨ m_fd = -1) :=
  ⟨submitHandle_iff hs uid m_fd .WRITE _, submitHandle_iff hs uid m_fd .READ _, submitHandle_iff hs uid m_fd .CLOSE _⟩

-- ---------------------------------------------------------------------------
-- Requests to open a file
-- ---------------------------------------------------------------------------

/-- The number of bytes that `memcpy` is given, which is also where the NUL is put. -/
def copiedLength (path : Bytes) : Nat := min sizeofPath path.length

def pathWrites (path : Bytes) : List Nat := List.range (copiedLength path) ++ [copiedLength path]

/-- The request memory from the path on after the copy and the NUL. -/
def openPath (path : Bytes) : Bytes :=
  (memcpy FileIo.zero.path path (copiedLength path)).set (copiedLength path) 0

def async_open (w : Services FileIo) (ioservice uid : Nat) (path : Bytes) (dir_fd : Int) (flags mode : BitVec 32) :
    Option (Services FileIo × Bool) :=
  w.submitRequest ioservice uid
    ⟨some { FileIo.zero with dfd := dir_fd, flags, mode, path := openPath path }, some ⟨.OPEN, uid⟩⟩

/-- The call returns false, or the request it queued names the file; and nothing
is written beyond the path array. -/
structure OpensNamed (path : Bytes) (ioservice : Nat) (call : Option (Services FileIo × Bool)) : Prop where
  named : ∀ w', call = some (w', true) → ∃ s fns fn io, w'.objects ioservice = some s ∧
    s.m_request_submit_queue = some (fns ++ [fn]) ∧ fn.sp_context.onEvents = some io ∧ c_str io.path = path
  inBounds : ∀ i ∈ pathWrites path, i < sizeofPath

theorem pathWrites_iff (path : Bytes) : (∀ i ∈ pathWrites path, i < sizeofPath) ↔ path.length < sizeofPath := by
  simp only [pathWrites, copiedLength, List.mem_append, List.mem_range, List.mem_singleton]
  constructor
  · intro h
    have hlast := h _ (.inr rfl)
    omega
  · rintro h i (hi | rfl) <;> omega

theorem openPath_eq (h : path.length < sizeofPath) : ∃ rest, openPath path = path ++ 0 :: rest := by
  have hcopied : copiedLength path = path.length := Nat.min_eq_right (Nat.le_of_lt h)
  obtain ⟨k, hk⟩ : ∃ k, sizeofFromPath - path.length = k + 1 :=
    ⟨sizeofFromPath - path.length - 1, by simp only [sizeofFromPath, sizeofPath] at h ⊢; omega⟩
  refine ⟨List.replicate k 0, ?_⟩
  rw [openPath, hcopied, memcpy, List.take_length, FileIo.zero, List.drop_replicate, hk, List.replicate_succ,
    List.set_append_right _ _ (Nat.le_refl _), Nat.sub_self, List.set_cons_zero]

theorem c_str_append (path rest : Bytes) : c_str (path ++ 0 :: rest) = path ↔ 0 ∉ path := by
  induction path with
  | nil => simp [c_str]
  | cons b path ih =>
    by_cases hb : b = 0
    · simp [c_str, hb]
    · simpa [c_str, hb, Ne.symm hb] using ih

/-- A longer path names the file of its first 256 bytes. -/
theorem openPath_long (h : sizeofPath ≤ path.length) (hnul : 0 ∉ path) :
    c_str (openPath path) = path.take sizeofPath := by
  have hcopied : copiedLength path = sizeofPath := Nat.min_eq_left h
  have hlen : (path.take sizeofPath).length = sizeofPath := by
    rw [List.length_take, Nat.min_eq_left h]
  have hopen : openPath path = path.take sizeofPath ++ 0 :: List.replicate 735 0 := by
    rw [openPath, hcopied, memcpy, FileIo.zero, List.drop_replicate, List.set_append_right _ _ (Nat.le_of_eq hlen),
      hlen, Nat.sub_self]
    rfl
  rw [hopen, c_str_append]
  exact fun hmem => hnul (List.mem_of_mem_take hmem)

theorem named_iff {w : Services FileIo} {s : ServiceObject FileIo} (hs : w.objects ioservice = some s)
    (uid : Nat) (io : FileIo) (path : Bytes) (req : IoRequest) :
    (∀ w', w.submitRequest ioservice uid ⟨some io, some req⟩ = some (w', true) → ∃ s fns fn io,
      w'.objects ioservice = some s ∧ s.m_request_submit_queue = some (fns ++ [fn]) ∧
        fn.sp_context.onEvents = some io ∧ c_str io.path = path) ↔ s.accepts = false ∨ c_str io.path = path := by
  obtain ⟨w', hsubmit, -⟩ := submitRequest_accepts hs uid ⟨some io, some req⟩
  rw [hsubmit]
  cases haccepts : s.accepts with
  | false => exact iff_of_true nofun (.inl rfl)
  | true =>
    rw [haccepts] at hsubmit
    obtain ⟨s₁, fns, hs₁, hfns⟩ := submitRequest_queues hsubmit
    constructor
    · intro h
      obtain ⟨s₂, fns', fn, io', hs₂, hfns', hio, hpath⟩ := h w' rfl
      cases hs₁.symm.trans hs₂
      obtain ⟨-, hfn⟩ := List.append_inj' (Option.some.inj (hfns.symm.trans hfns')) rfl
      cases hfn
      cases hio
      exact .inr hpath
    · rintro (h | hpath) w₁ h₁
      · cases h
      · cases h₁
        exact ⟨s₁, fns, _, io, hs₁, hfns, rfl, hpath⟩

/-- The file named is opened, and nothing is written beyond the array, just for
the paths of at most 255 bytes that have no NUL; for the others of at most 255
bytes the service must refuse. -/
theorem async_open_names_iff (w : Services FileIo) (ioservice : Nat) (s : ServiceObject FileIo)
    (hs : w.objects ioservice = some s) (uid : Nat) (path : Bytes) (dir_fd : Int) (flags mode : BitVec 32) :
    OpensNamed path ioservice (async_open w ioservice uid path dir_fd flags mode) ↔
      path.length ≤ 255 ∧ (s.accepts = false ∨ 0 ∉ path) := by
  have hlength : (∀ i ∈ pathWrites path, i < sizeofPath) ↔ path.length ≤ 255 :=
    (pathWrites_iff path).trans Nat.lt_succ_iff
  have hnamed := named_iff hs uid { FileIo.zero with dfd := dir_fd, flags, mode, path := openPath path } path ⟨.OPEN, uid⟩
  have hsplit : OpensNamed path ioservice (async_open w ioservice uid path dir_fd flags mode) ↔
      path.length ≤ 255 ∧ (s.accepts = false ∨ c_str (openPath path) = path) := by
    rw [← hlength, ← hnamed]
    exact ⟨fun h => ⟨h.inBounds, h.named⟩, fun h => ⟨h.2, h.1⟩⟩
  rw [hsplit]
  refine and_congr_right fun hle => or_congr_right ?_
  obtain ⟨rest, hrest⟩ := openPath_eq (Nat.lt_succ_of_le hle)
  rw [hrest, c_str_append]

def movedService : Option (Services FileIo) := do
  let w ← Services.construct ⟨fun _ => none, fun _ => none, fun _ => none⟩ 0 128 0 128
  let w ← w.construct 1 128 1 128
  w.moveConstruct 2 1

theorem movedService_objects : ∃ w s s', movedService = some w ∧ w.objects 0 = some s ∧ s.accepts = true ∧
    w.objects 1 = some s' ∧ s'.accepts = false :=
  ⟨_, _, _, rfl, rfl, rfl, rfl, rfl⟩

theorem io_file_refused_iff_accepts : ∃ w, movedService = some w ∧ KeepsFile w 3 (async_write w 0 5 3 [104, 105]) ∧
    KeepsFile w 3 (async_read w 0 5 3) ∧ KeepsFile w 3 (async_close w 0 5 3) := by
  obtain ⟨w, s, -, hw, hs, haccepts, -⟩ := movedService_objects
  obtain ⟨hwrite, hread, hclose⟩ := io_file_refused_iff w 0 s hs 5 3 [104, 105]
  exact ⟨w, hw, hwrite.mpr (.inl haccepts), hread.mpr (.inl haccepts), hclose.mpr (.inl haccepts)⟩

/-- A service that was moved from refuses to close descriptor 3, and the file has it no more. -/
theorem io_file_refused_loses : ¬∀ (w : Services FileIo) (ioservice : Nat) (s : ServiceObject FileIo),
    w.objects ioservice = some s → ∀ uid m_fd, KeepsFile w m_fd (async_close w ioservice uid m_fd) := by
  intro h
  obtain ⟨w, -, s, -, -, -, hs, hrefuses⟩ := movedService_objects
  have hcond := (submitHandle_iff hs 5 3 .CLOSE FileIo.zero).mp (h w 1 s hs 5 3)
  simp [hrefuses] at hcond

theorem async_open_names_iff_short : ∃ w, movedService = some w ∧
    OpensNamed [97, 47, 98] 0 (async_open w 0 5 [97, 47, 98] 0 0 0) := by
  obtain ⟨w, s, -, hw, hs, -⟩ := movedService_objects
  exact ⟨w, hw, (async_open_names_iff w 0 s hs 5 [97, 47, 98] 0 0 0).mpr ⟨by decide, .inr (by decide)⟩⟩

/-- 256 times the letter a: the NUL is put beyond the array. -/
theorem async_open_names_beyond : ¬∀ (w : Services FileIo) (ioservice : Nat) (s : ServiceObject FileIo),
    w.objects ioservice = some s → ∀ uid path dir_fd flags mode,
      OpensNamed path ioservice (async_open w ioservice uid path dir_fd flags mode) := by
  intro h
  obtain ⟨w, s, -, hw, hs, -⟩ := movedService_objects
  have hbounds := (h w 0 s hs 5 (List.replicate 256 97) 0 0 0).inBounds
  rw [pathWrites_iff, List.length_replicate] at hbounds
  exact Nat.lt_irrefl _ hbounds

end Andren.Network
