import Andren.Machine.Overlay
import Andren.Network.IoFileData

/-!
# What the operations of files write and read

Each request to read or write is for offset 0, so that writes lie over each other: a read tells what
the last writer left (`async_read_last_writers`), and what was written one after the other is all there
only if at most one write had anything to write (`async_writes_concatenate_iff`).
-/

namespace Andren.Network

open Machines Base AFile

open scoped List

/-- What leaves the descriptors that are open as they are, or closes them, and writes at no other offset. -/
def FileOp.gentle : FileOp → Bool
  | .job _ (.OPEN, _) | .immediately_open .. | .immediately_write .. => false
  | _ => true

def bytesWritten? (fds : Int → Option Description) (name : Bytes) : FileOp × List FileAnswer → Option Bytes
  | (.job _ (.WRITE, io), [.onWrite wrsize]) =>
    if (fds io.fd).map Description.path = some name ∧ 0 ≤ wrsize then some (io.data.take wrsize.toNat) else none
  | _ => none

def bytesWritten (fds : Int → Option Description) (name : Bytes) (l : List (FileOp × List FileAnswer)) : List Bytes :=
  l.filterMap (bytesWritten? fds name)

/-- No descriptor of the file is for appending. -/
def Overwrites (fds : Int → Option Description) (name : Bytes) : Prop :=
  ∀ fd d, fds fd = some d → d.path = name → d.flags &&& O_APPEND = 0

def Appends (fds : Int → Option Description) (name : Bytes) : Prop :=
  ∀ fd d, fds fd = some d → d.path = name → d.flags &&& O_APPEND ≠ 0

/-- The open descriptors of `fds'` are those of `fds` or fewer. -/
def Narrows (fds fds' : Int → Option Description) : Prop :=
  ∀ fd d', fds' fd = some d' → ∃ d, fds fd = some d ∧ d.path = d'.path ∧ d.flags = d'.flags

def laid (flags : Nat) (c data : Bytes) : Bytes := if flags &&& O_APPEND = 0 then overlay c data else c ++ data

theorem write_laid (d : Description) (c data : Bytes) :
    (Description.write { d with offset := 0 } c data).2 = laid d.flags c data := by
  simp only [Description.write, laid]
  split
  · simp [put, overlay]
  · exact put_end c data

section

variable {absolute : Int → Bytes → Bytes} {k₀ k k' : IoKernel} {fds : Int → Option Description}

theorem Narrows.refl (fds : Int → Option Description) : Narrows fds fds := fun _ d h => ⟨d, h, rfl, rfl⟩

theorem Narrows.close (h : Narrows fds fds') (fd : Int) : Narrows fds (Function.update fds' fd none) := by
  intro fd' d' hd'
  rw [Function.update_apply] at hd'
  split at hd'
  · cases hd'
  · exact h fd' d' hd'

theorem Narrows.seek (h : Narrows fds fds') (hd : fds' fd = some d) (offset : Nat) :
    Narrows fds (Function.update fds' fd (some { d with offset })) := by
  intro fd' d' hd'
  rw [Function.update_apply] at hd'
  split at hd'
  · rename_i heq
    cases hd'
    exact heq ▸ h fd d hd
  · exact h fd' d' hd'

structure Gentle (fds : Int → Option Description) (k k' : IoKernel) (p : FileOp × List FileAnswer) : Prop where
  narrows : Narrows fds k'.fds
  content : ∀ name, (bytesWritten? fds name p = none ∧ k'.content name = k.content name) ∨
    ∃ fd d data, fds fd = some d ∧ d.path = name ∧ bytesWritten? fds name p = some data ∧
      k'.content name = laid d.flags (k.content name) data

theorem write_content {d d' : Description} (h : k.write d data = some (k', d')) : k'.fds = k.fds ∧
    k'.content d.path = (Description.write d (k.content d.path) data).2 ∧
      ∀ name, name ≠ d.path → k'.content name = k.content name := by
  obtain ⟨-, h⟩ := Option.ite_none_left_eq_some.mp h
  cases h
  refine ⟨rfl, ?_, ?_⟩
  · change (Function.update k.disk d.path (some _) d.path).getD [] = _
    rw [Function.update_self]
    rfl
  · intro name hname
    exact congrArg (Option.getD · []) (Function.update_of_ne hname ..)

theorem carryOut_write (hfds : Narrows fds k.fds) (h : k.carryOut absolute (.WRITE, io) res = some (k', data)) :
    Gentle fds k k' (.job uid (.WRITE, io), [.onWrite res]) := by
  rw [IoKernel.carryOut] at h
  split at h
  · rename_i hres
    cases h
    refine ⟨hfds, fun name => .inl ⟨if_neg ?_, rfl⟩⟩
    omega
  · rename_i hres
    have hres : 0 ≤ res := by simpa using hres
    simp only [Option.bind_eq_bind, Option.bind_eq_some_iff] at h
    obtain ⟨d', hd', h⟩ := h
    obtain ⟨-, h⟩ := Option.ite_none_left_eq_some.mp h
    simp only [Option.bind_eq_some_iff] at h
    obtain ⟨⟨k₁, _⟩, hwrite, h⟩ := h
    cases h
    obtain ⟨hsame, hown, hother⟩ := write_content hwrite
    obtain ⟨d, hd, hpath, hflags⟩ := hfds io.fd d' hd'
    refine ⟨hsame ▸ hfds, ?_⟩
    intro name
    by_cases hname : d.path = name
    · refine .inr ⟨io.fd, d, io.data.take res.toNat, hd, hname, if_pos ⟨by simp [hd, hname], hres⟩, ?_⟩
      rw [hflags, ← write_laid, ← hname, hpath]
      exact hown
    · exact .inl ⟨if_neg (by simp [hd, hname]), hother name (hpath ▸ Ne.symm hname)⟩

theorem carryOut_read (hfds : Narrows fds k.fds) (h : k.carryOut absolute (.READ, io) res = some (k', data)) :
    k' = k ∧ data.length ≤ sizeofBuf ∧ (0 ≤ res → data.length = res.toNat) ∧
      (data = [] ∨ ∃ d, fds io.fd = some d ∧ data <+: k.content d.path) := by
  rw [IoKernel.carryOut] at h
  split at h
  · cases h
    exact ⟨rfl, Nat.zero_le _, by omega, .inl rfl⟩
  · simp only [Option.bind_eq_bind, Option.bind_eq_some_iff, IoKernel.read] at h
    obtain ⟨d', hd', all, hall, h⟩ := h
    obtain ⟨-, hall⟩ := Option.ite_none_left_eq_some.mp hall
    cases hall
    obtain ⟨hlen, h⟩ := Option.ite_none_left_eq_some.mp h
    cases h
    obtain ⟨d, hd, hpath, -⟩ := hfds io.fd d' hd'
    refine ⟨rfl, ?_, ?_, .inr ⟨d, hd, ?_⟩⟩
    · simp only [List.length_take]
      omega
    · intro _
      rw [List.length_take]
      omega
    · rw [hpath, List.drop_zero]
      exact (List.take_prefix ..).trans (List.take_prefix ..)

theorem Gentle.idle (hfds : Narrows fds k'.fds) (hp : ∀ name, bytesWritten? fds name p = none)
    (hdisk : k'.disk = k.disk) : Gentle fds k k' p :=
  ⟨hfds, fun name => .inl ⟨hp name, congrArg (fun disk => (disk name).getD []) hdisk⟩⟩

theorem gentle_step (hfds : Narrows fds k.fds) (hs : (ioKernel absolute k₀).step k (op, res) = some (k', es))
    (hop : op.gentle) : Gentle fds k k' (op, es) := by
  cases op with
  | job uid job =>
    simp only [ioKernel, Option.bind_eq_bind, Option.bind_eq_some_iff] at hs
    obtain ⟨⟨k₁, data⟩, hcarried, hs⟩ := hs
    cases hs
    obtain ⟨req, io⟩ := job
    cases req with
    | OPEN => cases hop
    | WRITE => exact carryOut_write hfds hcarried
    | READ =>
      obtain ⟨rfl, -⟩ := carryOut_read hfds hcarried
      exact .idle hfds (fun _ => rfl) rfl
    | CLOSE =>
      simp only [IoKernel.carryOut] at hcarried
      split at hcarried <;> cases hcarried
      · exact .idle hfds (fun _ => rfl) rfl
      · exact .idle (hfds.close _) (fun _ => rfl) rfl
    | CONNECT | ACCEPT | RECV | SEND | DISCONNECT | HOSTING | OTHER =>
      simp only [IoKernel.carryOut] at hcarried
      split at hcarried <;> cases hcarried <;> exact .idle hfds (fun _ => rfl) rfl
  | immediately_open path flags mode => cases hop
  | immediately_write fd data => cases hop
  | immediately_read fd data =>
    simp only [ioKernel, IoKernel.immediately] at hs
    split at hs
    · cases hs
      exact .idle hfds (fun _ => rfl) rfl
    · simp only [Option.bind_eq_bind, Option.bind_eq_some_iff] at hs
      obtain ⟨d, hd, got, -, hs⟩ := hs
      obtain ⟨-, hs⟩ := Option.ite_none_left_eq_some.mp hs
      cases hs
      exact .idle (hfds.seek hd _) (fun _ => rfl) rfl
  | immediately_close fd =>
    cases hs
    split
    · exact .idle hfds (fun _ => rfl) rfl
    · exact .idle (hfds.close fd) (fun _ => rfl) rfl

structure Leaves (fds : Int → Option Description) (k k' : IoKernel) (l : List (FileOp × List FileAnswer)) : Prop where
  narrows : Narrows fds k'.fds
  overwritten : ∀ name, Overwrites fds name → k'.content name = overlays (k.content name) (bytesWritten fds name l)
  appended : ∀ name, Appends fds name → k'.content name = k.content name ++ (bytesWritten fds name l).flatten

theorem bytesWritten_cons (p : FileOp × List FileAnswer) (l : List (FileOp × List FileAnswer)) :
    bytesWritten fds name (p :: l) = (bytesWritten? fds name p).toList ++ bytesWritten fds name l := by
  cases hp : bytesWritten? fds name p <;> simp [bytesWritten, hp]

theorem gentle_run {l : List (FileOp × List FileAnswer)} (hfds : Narrows fds k.fds)
    (hs : Serial (ioKernel absolute k₀) k l k') (hl : ∀ p ∈ l, p.1.gentle) : Leaves fds k k' l := by
  induction l generalizing k with
  | nil =>
    cases hs
    exact ⟨hfds, fun _ _ => rfl, fun _ _ => (List.append_nil _).symm⟩
  | cons p l ih =>
    obtain ⟨op, es⟩ := p
    obtain ⟨res, k₁, hp, hs⟩ := serial_cons.mp hs
    obtain ⟨hfds₁, hcontent⟩ := gentle_step hfds hp (hl _ (.head _))
    obtain ⟨hnarrows, hover, happend⟩ := ih hfds₁ hs fun p hp => hl p (.tail _ hp)
    refine ⟨hnarrows, ?_, ?_⟩
    · intro name hname
      rw [hover name hname, bytesWritten_cons]
      obtain ⟨hnone, hsame⟩ | ⟨fd, d, data, hd, hpath, hsome, hlaid⟩ := hcontent name
      · rw [hnone, hsame]
        rfl
      · rw [hsome, hlaid, laid, if_pos (hname fd d hd hpath)]
        rfl
    · intro name hname
      rw [happend name hname, bytesWritten_cons]
      obtain ⟨hnone, hsame⟩ | ⟨fd, d, data, hd, hpath, hsome, hlaid⟩ := hcontent name
      · rw [hnone, hsame]
        rfl
      · rw [hsome, hlaid, laid, if_neg (hname fd d hd hpath), List.append_assoc]
        rfl

theorem read_step (hfds : Narrows fds k.fds)
    (hs : (ioKernel absolute k₀).step k (.job uid (.READ, io), res) = some (k', [.onRead data rdsize])) :
    rdsize = data.length ∧ data.length ≤ sizeofBuf ∧
      (data = [] ∨ ∃ d, fds io.fd = some d ∧ data <+: k.content d.path) := by
  simp only [ioKernel, Option.bind_eq_bind, Option.bind_eq_some_iff, Option.pure_def, Option.some.injEq,
    Prod.mk.injEq, callback, List.cons.injEq, FileAnswer.onRead.injEq] at hs
  obtain ⟨⟨k₁, all⟩, hcarried, -, ⟨rfl, rfl⟩, -⟩ := hs
  obtain ⟨-, hlen, -, hprefix⟩ := carryOut_read hfds hcarried
  refine ⟨rfl, ?_, ?_⟩
  · split
    · exact (List.length_take_le' ..).trans hlen
    · exact Nat.zero_le _
  · split
    · rcases hprefix with rfl | ⟨d, hd, hprefix⟩
      · exact .inl List.take_nil
      · exact .inr ⟨d, hd, (List.take_prefix ..).trans hprefix⟩
    · exact .inl rfl

end

/-- While no file is opened or written by `immediately_write`, a read tells for each place the byte of the last
writer that reached it, or appended pieces one behind the other; at most 728 bytes from the beginning. -/
theorem async_read_last_writers (entries m_size : Nat) (absolute : Int → Bytes → Bytes) (k₀ : IoKernel)
    (tr : List FileServiceEv) (s : FileService)
    (h : (fileService entries m_size absolute k₀).RunIf FileService.UidsLeft tr s) : Explains absolute k₀ tr s ∧
      ∀ before ws uid io data rdsize after,
        operations tr = before ++ (ws ++ (.job uid (.READ, io), [.onRead data rdsize]) :: after) →
        (∀ p ∈ ws, p.1.gentle) → ∃ k, Serial (ioKernel absolute k₀) k₀ before k ∧
          rdsize = data.length ∧ data.length ≤ sizeofBuf ∧
          (data = [] ∨ ∃ d, k.fds io.fd = some d ∧
            let c := k.content d.path
            let ds := bytesWritten k.fds d.path ws
            (Overwrites k.fds d.path →
              ∀ i < data.length, data[i]? = (c :: ds).reverse.findSome? fun piece => piece[i]?) ∧
            (Appends k.fds d.path → data <+: c ++ ds.flatten)) := by
  have hexplains := (fileService_run h).explains
  refine ⟨hexplains, ?_⟩
  intro before ws uid io data rdsize after hl hws
  obtain ⟨k, hbefore, hrest⟩ := serial_append.mp (hl ▸ hexplains.serial)
  obtain ⟨k₁, hws', hread⟩ := serial_append.mp hrest
  obtain ⟨res, k₂, hread, -⟩ := serial_cons.mp hread
  obtain ⟨hnarrows, hover, happend⟩ := gentle_run (.refl k.fds) hws' hws
  obtain ⟨hrdsize, hlen, hdata⟩ := read_step hnarrows hread
  refine ⟨k, hbefore, hrdsize, hlen, hdata.imp_right ?_⟩
  rintro ⟨d, hd, hprefix⟩
  refine ⟨d, hd, ?_, fun happends => happend d.path happends ▸ hprefix⟩
  intro hoverwrites i hi
  rw [← getElem?_overlays, ← hover d.path hoverwrites]
  obtain ⟨rest, hrest⟩ := hprefix
  rw [← hrest, List.getElem?_append_left hi]

theorem openFile_overwrites : Overwrites openFile.fds [102] := by
  intro fd d hd _
  obtain ⟨-, hd⟩ := Option.ite_none_right_eq_some.mp hd
  cases hd
  rfl

theorem async_read_last_writers_two : ∃ tr s,
    (fileService 8 8 (fun _ path => path) openFile).RunIf FileService.UidsLeft tr s ∧ operations tr = twoWritten ∧
      ∀ i < 2, ([33, 105] : Bytes)[i]? =
        ([[], [72, 105], [33]] : List Bytes).reverse.findSome? fun piece => piece[i]? := by
  obtain ⟨tr, s, hrun, hoperations, -⟩ := twoWrites_run
  obtain ⟨-, hreads⟩ := async_read_last_writers 8 8 (fun _ path => path) openFile tr s hrun
  obtain ⟨k, hk, -, -, hread⟩ := hreads [] (twoWritten.take 2) _ _ _ _ [] hoperations (by decide)
  cases hk
  obtain hnil | ⟨d, hd, hread, -⟩ := hread
  · cases hnil
  · cases hd
    exact ⟨tr, s, hrun, hoperations, hread openFile_overwrites⟩

/-- While no file is opened or written by `immediately_write`, the requests leave in a file what it had and what
they wrote one behind the other only when at most one of these has anything in it, unless each appends. -/
theorem async_writes_concatenate_iff (entries m_size : Nat) (absolute : Int → Bytes → Bytes) (k₀ : IoKernel)
    (tr : List FileServiceEv) (s : FileService)
    (h : (fileService entries m_size absolute k₀).RunIf FileService.UidsLeft tr s) : Explains absolute k₀ tr s ∧
      ∀ before ws, operations tr = before ++ ws → (∀ p ∈ ws, p.1.gentle) →
        ∃ k, Serial (ioKernel absolute k₀) k₀ before k ∧ ∀ name, let c := k.content name
          let ds := bytesWritten k.fds name ws
          (Overwrites k.fds name →
            ((∃ ds', ds' ~ ds ∧ s.kernel.content name = c ++ ds'.flatten) ↔ substantial (c :: ds) ≤ 1)) ∧
          (Appends k.fds name → s.kernel.content name = c ++ ds.flatten) := by
  have hexplains := (fileService_run h).explains
  refine ⟨hexplains, ?_⟩
  intro before ws hl hws
  obtain ⟨k, hbefore, hrest⟩ := serial_append.mp (hl ▸ hexplains.serial)
  obtain ⟨-, hover, happend⟩ := gentle_run (.refl k.fds) hrest hws
  refine ⟨k, hbefore, fun name => ⟨?_, happend name⟩⟩
  intro hoverwrites
  rw [hover name hoverwrites]
  exact overlays_append_iff ..

theorem async_writes_concatenate_iff_two : ∃ tr s,
    (fileService 8 8 (fun _ path => path) openFile).RunIf FileService.UidsLeft tr s ∧ operations tr = twoWritten ∧
      ¬∃ ds', ds' ~ ([[72, 105], [33]] : List Bytes) ∧ s.kernel.content [102] = [] ++ ds'.flatten := by
  obtain ⟨tr, s, hrun, hoperations, -⟩ := twoWrites_run
  obtain ⟨-, hwrites⟩ := async_writes_concatenate_iff 8 8 (fun _ path => path) openFile tr s hrun
  obtain ⟨k, hk, hwrites⟩ := hwrites [] twoWritten hoperations (by decide)
  cases hk
  exact ⟨tr, s, hrun, hoperations, fun h => absurd (((hwrites [102]).1 openFile_overwrites).mp h) (by decide)⟩

end Andren.Network
