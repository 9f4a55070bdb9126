import Andren.Base.ArchiveDecompress
import Andren.Machine.Overlay
import Mathlib.Data.List.ModifyLast

/-!
# Packing and unpacking

`compress` announces the size that `stat` gave and then writes what `read` returns. It opens the
file for writing too, and does not look whether that worked: of a file that it may not write the
archive gets as many zeros. `decompress` writes over what is there and does not cut it off.

So unpacking gives a file back if and only if it was read whole and no longer one was there, as
long as no two names lead to one place (`archive_round_trip_iff`).
-/

namespace Andren.Base

open Machines

/-- What is used of libarchive: `entries` are the names and contents that a reader finds. The names
that come back are those that the format can hold. -/
structure SevenZip (A : Type) where
  Holds : Bytes → Prop
  archive_write_new : A
  archive_write_header : A → Bytes → Nat → A
  archive_write_data : A → Bytes → A
  entries : A → List (Bytes × Bytes)

/-- The data of an entry are cut to its size, or filled up with zeros. -/
def fit (size : Nat) (data : Bytes) : Bytes := data.take size ++ List.replicate (size - data.length) 0

/-- The writer may change the order of the entries: it puts the empty ones behind the others. -/
structure SevenZip.Lawful (lib : SevenZip A) : Prop where
  new : lib.entries lib.archive_write_new = []
  entry (a : A) (name : Bytes) (size : Nat) (pieces : List Bytes) : lib.Holds name →
    (lib.entries (pieces.foldl lib.archive_write_data (lib.archive_write_header a name size))).Perm
      (lib.entries a ++ [(name, fit size pieces.flatten)])

/-- A file that is not changed while it is packed. `pieces` are what the calls of `read` return up to the
first result that is not positive, if `open` lets them. -/
structure SourceFile where
  path : FileName
  content : Bytes
  opens : Bool
  pieces : List Bytes
  front : pieces.flatten <+: content

namespace Archive

def compress (lib : SevenZip A) (type_ : ArchiveType) (archive_ : A) (file? : Option SourceFile) : Int × A :=
  if type_ ≠ .COMPRESS then (-1, archive_)
  else match file? with
    | none => (-2, archive_)
    | some file =>
      let archive_ := lib.archive_write_header archive_ (c_str file.path.1) file.content.length
      (0, (if file.opens then file.pieces else []).foldl lib.archive_write_data archive_)

def compressAll (lib : SevenZip A) (files : List SourceFile) : A :=
  files.foldl (fun archive_ file => (compress lib .COMPRESS archive_ (some file)).2) lib.archive_write_new

end Archive

def SourceFile.read (file : SourceFile) : Bytes := (if file.opens then file.pieces else []).flatten

def SourceFile.stored (file : SourceFile) : Bytes := fit file.content.length file.read

-- ---------------------------------------------------------------------------
-- Files that are unpacked
-- ---------------------------------------------------------------------------

/-- What stands at the places to which the system takes a path. -/
abbrev Contents (P : Type) := P → Option Bytes

def writeAt (c : Bytes) (pos : Nat) (data : Bytes) : Bytes := c.take pos ++ data ++ c.drop (pos + data.length)

structure Extracting (n : Nat) (P : Type) where
  extraction : Extraction n
  disk : Contents P

section

variable {n : Nat} {P : Type} [DecidableEq P]

/-- What a step of `decompress` does to the files: the one that is listed last is made if it is not there,
and gets the writes of the copy loop one behind the other. -/
def Extraction.wrote (place : Bytes → P) (disk : Contents P) : Extraction n → Extraction n → Contents P
  | .header .., .copying _ _ _ outList =>
    let file := place (c_str (outList.getLastD []))
    Function.update disk file (some ((disk file).getD []))
  | .copying _ x _ outList, .copying _ x' _ _ =>
    let file := place (c_str (outList.getLastD []))
    let data := (x'.writes.drop x.writes.length).flatMap (·.bytes)
    Function.update disk file (some (writeAt ((disk file).getD []) x.file.length data))
  | _, _ => disk

/-- `Archive::decompress` with the files it writes. -/
def Archive.extracting (place : Bytes → P) (a : Archive n) (_targetDir : Bytes) (disk : Contents P) :
    Machine (Extracting n P) Unit ExtractEv where
  init := ⟨(a.decompress _targetDir []).init, disk⟩
  step s _ := do
    let (extraction, es) ← (a.decompress _targetDir []).step s.extraction ()
    pure (⟨extraction, s.extraction.wrote place s.disk extraction⟩, es)

structure ArchiveEntry.Gives (e : ArchiveEntry n) (name content : Bytes) : Prop where
  name : e.pathname.1 = name
  size : e.size.toInt = content.length
  content : ∃ k, e.reads.StopsAt k ∧ e.reads.ret k = 0 ∧ e.reads.delivered k = content

def overwrite (old? : Option Bytes) (data : Bytes) : Bytes := overlay (old?.getD []) data

/-- What the file of an entry holds afterwards. An empty entry is passed over. -/
def restore (place : Bytes → P) (target : Bytes) (disk : Contents P) (e : Bytes × Bytes) : Contents P :=
  if e.2 = [] then disk
  else
    let file := place (Archive.targetDir target ++ e.1)
    Function.update disk file (some (overwrite (disk file) e.2))

end

-- ---------------------------------------------------------------------------
-- Packing
-- ---------------------------------------------------------------------------

theorem entries_compressAll {lib : SevenZip A} (hlib : lib.Lawful) {files : List SourceFile}
    (hholds : ∀ file ∈ files, lib.Holds file.path.1) :
    (lib.entries (Archive.compressAll lib files)).Perm (files.map fun file => (file.path.1, file.stored)) := by
  have hfold (a : A) : (lib.entries (files.foldl
      (fun archive_ file => (Archive.compress lib .COMPRESS archive_ (some file)).2) a)).Perm
        (lib.entries a ++ files.map fun file => (file.path.1, file.stored)) := by
    induction files generalizing a with
    | nil => simp
    | cons file files ih =>
      have hentry := hlib.entry a (c_str file.path.1) file.content.length
        (if file.opens then file.pieces else [])
      rw [c_str_eq file.path.2] at hentry
      rw [List.foldl_cons, Archive.compress, if_neg (by decide), c_str_eq file.path.2]
      refine (ih (fun file hfile => hholds file (.tail _ hfile)) _).trans ?_
      rw [List.map_cons, ← List.singleton_append, ← List.append_assoc]
      exact (hentry (hholds file (.head _))).append_right _
  have hall := hfold lib.archive_write_new
  rwa [hlib.new, List.nil_append] at hall

theorem length_fit (size : Nat) (data : Bytes) : (fit size data).length = size := by
  simp only [fit, List.length_append, List.length_take, List.length_replicate]
  omega

-- ---------------------------------------------------------------------------
-- Unpacking
-- ---------------------------------------------------------------------------

theorem writeAt_overwrite (old? : Option Bytes) (f data : Bytes) :
    writeAt (overwrite old? f) f.length data = overwrite old? (f ++ data) := by
  simp [writeAt, overwrite, overlay, List.drop_append]

section

variable {n : Nat} {P : Type} [DecidableEq P] {place : Bytes → P} {target : FileName}

def Extracted (place : Bytes → P) (target : FileName) (es : List (Bytes × Bytes)) (disk₀ : Contents P) :
    Extracting n P → Prop
  | ⟨.header rest _ _, disk⟩ => ∃ done todo, es = done ++ todo ∧
      List.Forall₂ (fun e p => e.Gives p.1 p.2) rest todo ∧ disk = done.foldl (restore place target.1) disk₀
  | ⟨.copying reads x rest outList, disk⟩ => ∃ done p todo k, es = done ++ p :: todo ∧
      List.Forall₂ (fun e p => e.Gives p.1 p.2) rest todo ∧ p.2 ≠ [] ∧
      (reads.StopsAt k ∧ reads.ret k = 0 ∧ reads.delivered k = p.2) ∧ x.Copying reads ∧ x.calls ≤ k ∧
      c_str (outList.getLastD []) = Archive.targetDir target.1 ++ p.1 ∧
      let disk' := done.foldl (restore place target.1) disk₀
      let file := place (Archive.targetDir target.1 ++ p.1)
      disk = Function.update disk' file (some (overwrite (disk' file) x.file))
  | ⟨.returned ret _, disk⟩ => ret = 0 → disk = es.foldl (restore place target.1) disk₀

theorem restore_done (place : Bytes → P) (target : FileName) (done : List (Bytes × Bytes)) (p : Bytes × Bytes)
    (disk : Contents P) : (done ++ [p]).foldl (restore place target.1) disk =
      restore place target.1 (done.foldl (restore place target.1) disk) p := by
  rw [List.foldl_append, List.foldl_cons, List.foldl_nil]

theorem extracted_header {a : Archive n} {e : ArchiveEntry n} {p : Bytes × Bytes}
    {es todo done : List (Bytes × Bytes)}
    (hes : es = done ++ p :: todo) (hrest : List.Forall₂ (fun e p => e.Gives p.1 p.2) rest todo)
    (he : e.Gives p.1 p.2) (hdisk : disk = done.foldl (restore place target.1) disk₀)
    (hs : (a.decompress target.1 []).step (.header (e :: rest) buffer listed) () = some (s', evs)) :
    Extracted place target es disk₀ ⟨s', (Extraction.header (e :: rest) buffer listed).wrote place disk s'⟩ := by
  obtain ⟨k, hstop, hend, hcontent⟩ := he.content
  by_cases hsize : 0 < e.size
  · have hpos : p.2 ≠ [] := by
      have hsize' := Int64.lt_iff_toInt_lt.mp hsize
      rw [he.size] at hsize'
      rintro hnil
      simp [hnil] at hsize'
    obtain ⟨evs', hextract, -⟩ := extract_spec e (not_mem_entryPath target e.pathname) rest buffer listed
    have hstep := ((if_pos hsize).trans hextract).symm.trans hs
    cases hstep
    have hpath : c_str (Archive.targetDir target.1 ++ e.pathname.1) = Archive.targetDir target.1 ++ p.1 := by
      rw [c_str_eq (not_mem_entryPath target e.pathname), he.name]
    split
    · refine ⟨done, p, todo, k, hes, hrest, hpos, ⟨hstop, hend, hcontent⟩, copying_start _, Nat.zero_le _,
        ?_, ?_⟩
      · rwa [List.getLastD_concat]
      · simp only [Extraction.wrote, List.getLastD_concat, hpath, hdisk]
        rfl
    · exact fun hret => absurd hret (by decide)
  · have hnil : p.2 = [] := by
      have hsize' := mt Int64.lt_iff_toInt_lt.mpr hsize
      rw [he.size] at hsize'
      exact List.eq_nil_of_length_eq_zero (by simpa using hsize')
    have hstep : (a.decompress target.1 []).step (.header (e :: rest) buffer listed) () =
        some (.header rest buffer listed, []) := if_neg hsize
    cases hstep.symm.trans hs
    refine ⟨done ++ [p], todo, by rw [hes, List.append_assoc]; rfl, hrest, ?_⟩
    rw [restore_done, restore, if_pos hnil]
    exact hdisk

theorem extracted_copying {a : Archive n} {reads : DataReads n} {x : CopyLoop n} {listed : List Bytes}
    (h : Extracted place target es disk₀ ⟨.copying reads x rest listed, disk⟩)
    (hs : (a.decompress target.1 []).step (.copying reads x rest listed) () = some (s', evs)) :
    Extracted place target es disk₀ ⟨s', (Extraction.copying reads x rest listed).wrote place disk s'⟩ := by
  obtain ⟨done, p, todo, k, hes, hrest, hpos, ⟨hstop, hend, hcontent⟩, hx, hle, hpath, hdisk⟩ := h
  by_cases hzero : reads.ret x.calls = 0
  · have hk : x.calls = k := by
      rcases Nat.lt_or_eq_of_le hle with hlt | heq
      · exact absurd (hzero ▸ hstop.2 _ hlt) (Int64.lt_irrefl)
      · exact heq
    have hstep : (a.decompress target.1 []).step (.copying reads x rest listed) () =
        some (.header rest (reads.fill x.calls x.buffer) listed, []) := by
      simp only [Archive.decompress, body_ends hzero]
    cases hstep.symm.trans hs
    refine ⟨done ++ [p], todo, by rw [hes, List.append_assoc]; rfl, hrest, ?_⟩
    rw [restore_done, restore, if_neg hpos, ← hcontent, ← hk, ← hx.file]
    exact hdisk
  · have hlt : x.calls < k := by
      rcases Nat.lt_or_eq_of_le hle with hlt | heq
      · exact hlt
      · exact absurd (heq ▸ hend) hzero
    obtain ⟨x', hbody, hx', hcalls⟩ := Copying.pass hx (hstop.2 _ hlt)
    have hstep : (a.decompress target.1 []).step (.copying reads x rest listed) () =
        some (.copying reads x' rest listed, []) := by
      simp only [Archive.decompress, hbody]
    cases hstep.symm.trans hs
    refine ⟨done, p, todo, k, hes, hrest, hpos, ⟨hstop, hend, hcontent⟩, hx', by omega, hpath, ?_⟩
    have hwrites : ∃ w, x'.writes = x.writes ++ [w] := by
      cases (body_goes hzero).symm.trans hbody
      exact ⟨_, rfl⟩
    obtain ⟨w, hwrites⟩ := hwrites
    have hfile : x'.file = x.file ++ [w].flatMap (·.bytes) := by
      rw [CopyLoop.file, hwrites, List.flatMap_append]
      rfl
    simp only [Extraction.wrote, hpath, hdisk, Function.update_self, Function.update_idem, hwrites, List.drop_left,
      Option.getD_some, writeAt_overwrite, hfile]

theorem extracting_step {a : Archive n} {s s' : Extracting n P} (h : Extracted place target es disk₀ s)
    (hs : (a.extracting place target.1 disk₀).step s () = some (s', evs)) : Extracted place target es disk₀ s' := by
  obtain ⟨extraction, disk⟩ := s
  simp only [Archive.extracting, Option.bind_eq_bind, Option.bind_eq_some_iff] at hs
  obtain ⟨⟨extraction', evs'⟩, hstep, hs⟩ := hs
  cases hs
  cases extraction with
  | header rest buffer listed =>
    obtain ⟨done, todo, hes, hrest, hdisk⟩ := h
    cases hrest with
    | nil =>
      cases hstep
      intro _
      rw [hes, List.append_nil]
      exact hdisk
    | cons he hrest => exact extracted_header hes hrest he hdisk hstep
  | copying reads x rest listed => exact extracted_copying h hstep
  | returned ret listed => cases hstep

theorem extracting_restores {a : Archive n} {es : List (Bytes × Bytes)} (htype : a.type_ = .DECOMPRESS)
    (hentries : List.Forall₂ (fun e p => e.Gives p.1 p.2) a.archive_ es)
    (h : (a.extracting place target.1 disk).Run tr ⟨.returned 0 outList, disk'⟩) :
    disk' = es.foldl (restore place target.1) disk := by
  have hok : Extracted place target es disk (⟨.returned 0 outList, disk'⟩ : Extracting n P) := by
    refine h.state_invariant (I := Extracted place target es disk) ?_ ?_
    · simp only [Archive.extracting, Archive.decompress, htype]
      exact ⟨[], es, rfl, hentries, rfl⟩
    · intro s _ s' evs hok _ hs
      exact extracting_step hok hs
  exact hok rfl

end

-- ---------------------------------------------------------------------------
-- Both
-- ---------------------------------------------------------------------------

section

variable {P : Type} [DecidableEq P] {place : Bytes → P} {target : Bytes}

theorem restore_at (target : Bytes) (disk : Contents P) (p : Bytes × Bytes) :
    restore place target disk p (place (Archive.targetDir target ++ p.1)) =
      if p.2 = [] then disk (place (Archive.targetDir target ++ p.1))
      else some (overwrite (disk (place (Archive.targetDir target ++ p.1))) p.2) := by
  unfold restore
  split
  · rfl
  · exact Function.update_self ..

theorem restore_other (disk : Contents P) (h : q ≠ place (Archive.targetDir target ++ p.1)) :
    restore place target disk p q = disk q := by
  unfold restore
  split
  · rfl
  · exact Function.update_of_ne h ..

theorem foldl_restore_other (disk : Contents P) {es : List (Bytes × Bytes)}
    (h : ∀ p ∈ es, q ≠ place (Archive.targetDir target ++ p.1)) : es.foldl (restore place target) disk q = disk q := by
  induction es generalizing disk with
  | nil => rfl
  | cons p es ih =>
    rw [List.foldl_cons, ih _ fun p hp => h p (.tail _ hp), restore_other disk (h p (.head _))]

theorem foldl_restore (disk : Contents P) {es : List (Bytes × Bytes)}
    (hdistinct : (es.map fun p => place (Archive.targetDir target ++ p.1)).Nodup) (hp : p ∈ es) :
    es.foldl (restore place target) disk (place (Archive.targetDir target ++ p.1)) =
      restore place target disk p (place (Archive.targetDir target ++ p.1)) := by
  induction es generalizing disk with
  | nil => cases hp
  | cons e es ih =>
    obtain ⟨hfirst, hrest⟩ := List.nodup_cons.mp hdistinct
    rw [List.foldl_cons]
    rcases List.mem_cons.mp hp with rfl | hp
    · refine foldl_restore_other _ fun e he heq => hfirst ?_
      exact List.mem_map.mpr ⟨e, he, heq.symm⟩
    · have hne : place (Archive.targetDir target ++ p.1) ≠ place (Archive.targetDir target ++ e.1) := by
        intro heq
        exact hfirst (List.mem_map.mpr ⟨p, hp, heq⟩)
      rw [ih _ hrest hp, restore_at, restore_at, restore_other disk hne]

end

theorem SourceFile.read_prefix (file : SourceFile) : file.read <+: file.content := by
  unfold read
  split
  · exact file.front
  · exact List.nil_prefix

theorem SourceFile.stored_eq (file : SourceFile) :
    file.stored = file.read ++ List.replicate (file.content.length - file.read.length) 0 := by
  rw [stored, fit, List.take_of_length_le file.read_prefix.length_le]

/-- What is put over the beginning of a file is then the file just when the file was not longer. -/
theorem overwrite_eq_iff (old? : Option Bytes) {data content : Bytes} (hlength : data.length = content.length) :
    overwrite old? data = content ↔ data = content ∧ ∀ old, old? = some old → old.length ≤ content.length := by
  have hlong : (old?.getD []).drop data.length = [] ↔ ∀ old, old? = some old → old.length ≤ content.length := by
    rw [List.drop_eq_nil_iff, hlength]
    cases old? <;> simp
  rw [← hlong]
  constructor
  · intro h
    obtain ⟨rfl, hnil⟩ := List.append_inj (h.trans (List.append_nil _).symm) hlength
    exact ⟨rfl, hnil⟩
  · rintro ⟨rfl, hnil⟩
    rw [overwrite, overlay, hnil, List.append_nil]

/-- When the files `files` are packed, and unpacking the archive ends well, each at a place of its own, then
a file that is not empty is given back if and only if all that was not read of it was zeros, and no
longer file was there; an empty file is not touched. -/
theorem archive_round_trip_iff {A P : Type} [DecidableEq P] (place : Bytes → P) (lib : SevenZip A) (hlib : lib.Lawful)
    (files : List SourceFile) (hholds : ∀ file ∈ files, lib.Holds file.path.1) (target : FileName)
    (hdistinct : (files.map fun file => place (Archive.targetDir target.1 ++ file.path.1)).Nodup) (n : Nat)
    (a : Archive n) (disk disk' : Contents P) (tr : List ExtractEv) (outList : List Bytes)
    (htype : a.type_ = .DECOMPRESS)
    (hentries : List.Forall₂ (fun e p => e.Gives p.1 p.2) a.archive_
      (lib.entries (Archive.compressAll lib files)))
    (h : (a.extracting place target.1 disk).Run tr ⟨.returned 0 outList, disk'⟩) (file : SourceFile)
    (hfile : file ∈ files) :
    let path := place (Archive.targetDir target.1 ++ file.path.1)
    (file.content ≠ [] → (disk' path = some file.content ↔
      file.content = file.read ++ List.replicate (file.content.length - file.read.length) 0 ∧
        ∀ old, disk path = some old → old.length ≤ file.content.length)) ∧
      (file.content = [] → disk' path = disk path) := by
  intro path
  have hlength : file.stored.length = file.content.length := length_fit ..
  have hperm := entries_compressAll hlib hholds
  have hplaces : ((lib.entries (Archive.compressAll lib files)).map fun p =>
      place (Archive.targetDir target.1 ++ p.1)).Nodup := by
    rw [(hperm.map _).nodup_iff, List.map_map]
    exact hdistinct
  have hmem : (file.path.1, file.stored) ∈ lib.entries (Archive.compressAll lib files) :=
    hperm.mem_iff.mpr (List.mem_map_of_mem hfile)
  have hdisk := congrFun (extracting_restores htype hentries h) path
  rw [foldl_restore disk hplaces hmem, restore_at] at hdisk
  constructor
  · intro hcontent
    have hstored : file.stored ≠ [] := by
      rw [← List.length_pos_iff, hlength, List.length_pos_iff]
      exact hcontent
    rw [hdisk, if_neg hstored, Option.some_inj, overwrite_eq_iff _ hlength, ← file.stored_eq, eq_comm (a := file.stored)]
  · intro hcontent
    have hstored : file.stored = [] := by
      rw [← List.length_eq_zero_iff, hlength, hcontent, List.length_nil]
    rw [hdisk, if_pos hstored]

def listZip : SevenZip (List (Bytes × Nat × Bytes)) where
  Holds _ := True
  archive_write_new := []
  archive_write_header a name size := a ++ [(name, size, [])]
  archive_write_data a data := a.modifyLast fun e => (e.1, e.2.1, e.2.2 ++ data)
  entries a := a.map fun e => (e.1, fit e.2.1 e.2.2)

theorem listZip_write (a : List (Bytes × Nat × Bytes)) (name : Bytes) (size : Nat) (data piece : Bytes) :
    listZip.archive_write_data (a ++ [(name, size, data)]) piece = a ++ [(name, size, data ++ piece)] :=
  List.modifyLast_concat ..

theorem listZip_lawful : listZip.Lawful where
  new := rfl
  entry a name size pieces _ := by
    have hdata (data : Bytes) : pieces.foldl listZip.archive_write_data (a ++ [(name, size, data)]) =
        a ++ [(name, size, data ++ pieces.flatten)] := by
      induction pieces generalizing data with
      | nil => simp
      | cons piece pieces ih => rw [List.foldl_cons, listZip_write, ih, List.flatten_cons, List.append_assoc]
    have hall := hdata []
    rw [List.nil_append] at hall
    refine .of_eq ((congrArg listZip.entries hall).trans ?_)
    exact List.map_append

def letters : DataReads 4 where
  ret i := if i = 0 then 2 else 0
  data i := if i = 0 then [104, 105] else []
  count i := by split <;> rfl
  fits i := by split <;> decide
  persists i h := by split at h <;> exact absurd h (by decide)

def packed : SourceFile where
  path := ⟨[97], by decide⟩
  content := [104, 105]
  opens := true
  pieces := [[104, 105]]
  front := List.prefix_rfl

def unpacked : Archive 4 where
  type_ := .DECOMPRESS
  buffer := ⟨List.replicate 4 0, List.length_replicate⟩
  archive_ := [⟨Int64.ofNat 2, packed.path, fun _ => 0, 3, letters⟩]

def unpacking : Machine (Extracting 4 (List Bytes)) Unit ExtractEv :=
  unpacked.extracting (resolve SLASH DOT []) [] fun _ => some [1, 2, 3]

theorem archive_round_trip_iff_longer : ∃ tr outList disk',
    unpacking.Run tr ⟨.returned 0 outList, disk'⟩ ∧ disk' [[97]] ≠ some packed.content := by
  have hr : (unpacking.replay unpacking.init (List.replicate 4 ())).isSome := rfl
  have hrun := Machine.steps_of_replay (Option.some_get hr).symm
  have hgives : List.Forall₂ (fun e p => ArchiveEntry.Gives e p.1 p.2) unpacked.archive_
      (listZip.entries (Archive.compressAll listZip [packed])) :=
    .cons ⟨rfl, rfl, 1, ⟨by decide, by decide⟩, rfl, rfl⟩ .nil
  have hiff := (archive_round_trip_iff (resolve SLASH DOT []) listZip listZip_lawful [packed] (fun _ _ => trivial)
    ⟨[], by decide⟩ (List.pairwise_singleton ..) 4 unpacked _ _ _ _ rfl hgives hrun packed (.head _)).1 (by decide)
  exact ⟨_, _, _, hrun, fun heq => absurd ((hiff.mp heq).2 _ rfl) (by decide)⟩

end Andren.Base
