import Andren.Base.ArchiveCopy
import Andren.Machine.LexicalPath
import Mathlib.Data.List.TakeWhile

/-!
# Extracting an archive

`Archive::decompress` puts the name of an entry behind the target directory and makes
every directory that the path runs through. Nothing looks at the name. All that is made,
opened and listed lies in the target directory just when no `..` of a name extracted steps
out of it and the directories leading to the target are not outside it themselves
(`decompress_stays_inside_iff`).
-/

namespace Andren.Base

open Machines

def SLASH : UInt8 := 0x2f

def DOT : UInt8 := 0x2e

abbrev FileName := { s : Bytes // 0 ∉ s }

def c_str (s : Bytes) : Bytes := s.takeWhile (· ≠ 0)

def find_first_of (s : Bytes) (c : UInt8) (pos : Nat) : Option Nat := ((s.drop pos).idxOf? c).map (pos + ·)

namespace File

/-- One pass of the loop of `createDirectories`, from the position reached and the
directories that `mkdir` was called for. -/
def createDirectoriesBody (mkdir : Bytes → Int) (path : Bytes) (ignoreErr : Bool) (s : Nat × List Bytes) :
    (Nat × List Bytes) ⊕ (Int × List Bytes) :=
  match find_first_of path SLASH (s.1 + 1) with
  | none => .inr (0, s.2)
  | some pos =>
    let dir := path.take pos
    if dir = [DOT] then .inl (pos, s.2)
    else if !ignoreErr ∧ mkdir (c_str dir) ≠ 0 then .inr (-1, s.2 ++ [c_str dir])
    else .inl (pos, s.2 ++ [c_str dir])

def createDirectories (mkdir : Bytes → Int) (path : Bytes) (ignoreErr : Bool) : Option (Int × List Bytes) :=
  loop (createDirectoriesBody mkdir path ignoreErr) (path.length + 1) (0, [])

/-- `handle()` of a new `File` after `open`, to which the system gave `fd`. -/
def handle (fd : Int) : Int := if fd < 0 then -1 else fd

end File

/-- An entry that `archive_read_next_header` gives, and what the system answers for its
path. -/
structure ArchiveEntry (n : Nat) where
  size : Int64
  pathname : FileName
  mkdir : Bytes → Int
  fd : Int
  reads : DataReads n

inductive ArchiveType
  | COMPRESS
  | DECOMPRESS
  deriving DecidableEq

/-- An archive with a buffer of `n` bytes, and the entries before the first header that is
not `ARCHIVE_OK`. -/
structure Archive (n : Nat) where
  type_ : ArchiveType
  buffer : { b : Bytes // b.length = n }
  archive_ : List (ArchiveEntry n)

namespace Archive

def O_RDWR : Nat := 0o2

def O_CREAT : Nat := 0o100

def mode : Nat := 0o775

def createDirectories (mkdir : Bytes → Int) (path : Bytes) : Option (Int × List Bytes) :=
  File.createDirectories mkdir path true

def targetDir (_targetDir : Bytes) : Bytes :=
  let targetDir := if _targetDir.length = 0 then [DOT, SLASH] else _targetDir
  if targetDir.getLast? ≠ some SLASH then targetDir ++ [SLASH] else targetDir

end Archive

inductive ExtractEv
  | mkdir (dir : Bytes) (mode : Nat)
  | opened (path : Bytes) (flags mode : Nat)
  | listed (path : Bytes)
  deriving DecidableEq

/-- Where `decompress` stands: before the next header, in the copy loop of an entry, or
returned. -/
inductive Extraction (n : Nat)
  | header (entries : List (ArchiveEntry n)) (buffer : { b : Bytes // b.length = n }) (outList : List Bytes)
  | copying (reads : DataReads n) (x : CopyLoop n) (entries : List (ArchiveEntry n)) (outList : List Bytes)
  | returned (ret : Int) (outList : List Bytes)

section

variable {n : Nat}

/-- `decompress` up to the copy loop, for an entry of a positive size. -/
def ArchiveEntry.extract (e : ArchiveEntry n) (entryPath : Bytes) (entries : List (ArchiveEntry n))
    (buffer : { b : Bytes // b.length = n }) (outList : List Bytes) : Option (Extraction n × List ExtractEv) :=
  (Archive.createDirectories e.mkdir entryPath).map fun (ret, dirs) =>
    let made := dirs.map (.mkdir · Archive.mode)
    if ret ≠ 0 then (.returned (-2) outList, made)
    else
      let tried := made ++ [.opened (c_str entryPath) (Archive.O_CREAT ||| Archive.O_RDWR) Archive.mode]
      if File.handle e.fd ≤ 0 then (.returned (-3) outList, tried)
      else (.copying e.reads (.start buffer) entries (outList ++ [entryPath]), tried ++ [.listed entryPath])

def Archive.decompress (a : Archive n) (_targetDir : Bytes) (outList : List Bytes) :
    Machine (Extraction n) Unit ExtractEv where
  init := if a.type_ ≠ .DECOMPRESS then .returned (-1) outList else .header a.archive_ a.buffer outList
  step
    | .header [] _ outList, _ => some (.returned 0 outList, [])
    | .header (e :: entries) buffer outList, _ =>
      if 0 < e.size then e.extract (Archive.targetDir _targetDir ++ e.pathname.1) entries buffer outList
      else some (.header entries buffer outList, [])
    | .copying reads x entries outList, _ =>
      match x.body reads with
      | .inl x' => some (.copying reads x' entries outList, [])
      | .inr x' => some (.header entries x'.buffer outList, [])
    | .returned .., _ => none

def ExtractEv.path : ExtractEv → Bytes
  | .mkdir dir _ => dir
  | .opened path _ _ => path
  | .listed path => path

/-- Read in the working directory `cwd` and normalised, `p` is the directory `target` or
below it. -/
def Inside (cwd : List Bytes) (target p : Bytes) : Prop :=
  resolve SLASH DOT cwd target <:+ resolve SLASH DOT cwd p

instance (cwd : List Bytes) (target p : Bytes) : Decidable (Inside cwd target p) :=
  inferInstanceAs (Decidable (_ <:+ _))

/-- Every path that `decompress` makes a directory for, opens or lists lies inside the
target directory, whatever it has come to. -/
def StaysInside (cwd : List Bytes) (target : FileName) (outList : List Bytes) (a : Archive n) : Prop :=
  ∀ tr s, (a.decompress target.1 outList).Run tr s → ∀ e ∈ tr, Inside cwd target.1 e.path

/-- The file of the entry is opened, and its data is copied to the end. -/
def ArchiveEntry.Copied (e : ArchiveEntry n) : Prop := 0 < e.fd ∧ e.reads.Ends

/-- The name of each entry extracted meets `P`. What has no size is passed over; behind
an entry that is not copied to the end none is extracted. -/
def ExtractsOnly (P : Bytes → Prop) : List (ArchiveEntry n) → Prop
  | [] => True
  | e :: entries => (0 < e.size → P e.pathname.1) ∧ ((0 < e.size → e.Copied) → ExtractsOnly P entries)

def LeadsInside (cwd : List Bytes) (target : Bytes) : Prop :=
  ∀ dir, Parent SLASH dir target → dir ≠ [] → dir ≠ [DOT] → Inside cwd target dir

/-- No `..` of the name steps out of the target directory, unless that is the root. -/
def StepsInside (cwd : List Bytes) (target name : Bytes) : Prop :=
  resolve SLASH DOT cwd target = [] ∨ descends DOT 0 (name.splitOn SLASH) = true

end

-- ---------------------------------------------------------------------------
-- Making directories
-- ---------------------------------------------------------------------------

theorem c_str_eq (h : 0 ∉ s) : c_str s = s := by
  refine List.takeWhile_eq_self_iff.mpr fun x hx => ?_
  exact decide_eq_true fun hzero => h (hzero ▸ hx)

theorem parent_iff {d path : Bytes} :
    Parent SLASH d path ↔ d = path.take d.length ∧ path[d.length]? = some SLASH := by
  constructor
  · rintro ⟨r, rfl⟩
    simp
  · rintro ⟨hd, hslash⟩
    obtain ⟨hlt, hget⟩ := List.getElem?_eq_some_iff.mp hslash
    refine ⟨path.drop (d.length + 1), ?_⟩
    rw [List.append_assoc, List.singleton_append, ← hget, List.getElem_cons_drop]
    have hsplit := List.take_append_drop d.length path
    rwa [← hd] at hsplit

theorem find_first_of_none (h : find_first_of path SLASH pos = none) (hd : Parent SLASH d path) :
    d.length < pos := by
  rw [find_first_of, Option.map_eq_none_iff, List.idxOf?_eq_none_iff] at h
  by_contra hle
  refine h ?_
  rw [List.mem_iff_getElem?]
  refine ⟨d.length - pos, ?_⟩
  rw [List.getElem?_drop, Nat.add_sub_cancel' (Nat.le_of_not_lt hle)]
  exact (parent_iff.mp hd).2

theorem find_first_of_some (h : find_first_of path SLASH pos = some p) :
    pos ≤ p ∧ p < path.length ∧ Parent SLASH (path.take p) path ∧
      ∀ d, Parent SLASH d path → pos ≤ d.length → p ≤ d.length := by
  obtain ⟨i, hi, rfl⟩ := Option.map_eq_some_iff.mp h
  obtain ⟨hlt, hget, hfirst⟩ := List.idxOf?_eq_some_iff.mp hi
  rw [List.length_drop] at hlt
  rw [List.getElem_drop] at hget
  refine ⟨Nat.le_add_right .., by omega, parent_iff.mpr ⟨?_, ?_⟩, fun d hd hle => ?_⟩
  · rw [List.length_take_of_le (by omega)]
  · rw [List.length_take_of_le (by omega)]
    exact List.getElem?_eq_some_iff.mpr ⟨by omega, hget⟩
  · by_contra hbefore
    obtain ⟨hlt', hget'⟩ := List.getElem?_eq_some_iff.mp (parent_iff.mp hd).2
    refine hfirst (d.length - pos) (by omega) ?_
    rw [List.getElem_drop]
    simpa only [Nat.add_sub_cancel' hle] using hget'

/-- What stands before the slashes behind `pos`: the first of them, and the rest. -/
theorem parent_next (h : find_first_of path SLASH (pos + 1) = some p) :
    pos < d.length ∧ Parent SLASH d path ↔ d = path.take p ∨ p < d.length ∧ Parent SLASH d path := by
  obtain ⟨hle, hlt, hparent, hfirst⟩ := find_first_of_some h
  have hlength : (path.take p).length = p := List.length_take_of_le (Nat.le_of_lt hlt)
  constructor
  · rintro ⟨hpos, hd⟩
    rcases Nat.eq_or_lt_of_le (hfirst d hd hpos) with rfl | hbehind
    · exact .inl (parent_iff.mp hd).1
    · exact .inr ⟨hbehind, hd⟩
  · rintro (rfl | ⟨hbehind, hd⟩)
    · exact ⟨by omega, hparent⟩
    · exact ⟨by omega, hd⟩

/-- From `pos` on, `mkdir` is called for what stands before each slash behind it. No call
is taken for an error. -/
theorem createDirectories_loop (mkdir : Bytes → Int) (hnul : 0 ∉ path) (pos : Nat) (dirs : List Bytes)
    (hpos : pos ≤ path.length) (hfuel : path.length < fuel + pos) :
    ∃ dirs', loop (File.createDirectoriesBody mkdir path true) fuel (pos, dirs) = some (0, dirs ++ dirs') ∧
      ∀ d, d ∈ dirs' ↔ d ≠ [DOT] ∧ pos < d.length ∧ Parent SLASH d path := by
  induction fuel generalizing pos dirs with
  | zero => omega
  | succ fuel ih =>
    cases hfind : find_first_of path SLASH (pos + 1) with
    | none =>
      refine ⟨[], ?_, fun d => iff_of_false List.not_mem_nil ?_⟩
      · simp only [loop, File.createDirectoriesBody, hfind, List.append_nil]
      · rintro ⟨-, hlt, hd⟩
        have hlength := find_first_of_none hfind hd
        omega
    | some p =>
      obtain ⟨hle, hlt, -, -⟩ := find_first_of_some hfind
      by_cases hdot : path.take p = [DOT]
      · obtain ⟨dirs', hloop, hmem⟩ := ih p dirs (Nat.le_of_lt hlt) (by omega)
        refine ⟨dirs', ?_, fun d => ?_⟩
        · simpa only [loop, File.createDirectoriesBody, hfind, if_pos hdot] using hloop
        · rw [hmem, parent_next hfind, hdot]
          exact and_congr_right fun hne => (or_iff_right hne).symm
      · have hdir : c_str (path.take p) = path.take p := c_str_eq fun h => hnul (List.mem_of_mem_take h)
        obtain ⟨dirs', hloop, hmem⟩ := ih p (dirs ++ [path.take p]) (Nat.le_of_lt hlt) (by omega)
        refine ⟨path.take p :: dirs', ?_, fun d => ?_⟩
        · simpa only [loop, File.createDirectoriesBody, hfind, if_neg hdot, hdir, Bool.not_true,
            Bool.false_eq_true, false_and, if_false, List.append_assoc, List.singleton_append] using hloop
        · rw [List.mem_cons, hmem, parent_next hfind, and_or_left]
          refine or_congr_left ⟨fun heq => ⟨heq ▸ hdot, heq⟩, And.right⟩

theorem createDirectories_eq (mkdir : Bytes → Int) (hnul : 0 ∉ path) :
    ∃ dirs, Archive.createDirectories mkdir path = some (0, dirs) ∧
      ∀ d, d ∈ dirs ↔ d ≠ [DOT] ∧ d ≠ [] ∧ Parent SLASH d path := by
  obtain ⟨dirs, hloop, hmem⟩ := createDirectories_loop mkdir hnul 0 [] (Nat.zero_le _) (Nat.lt_succ_self _)
  refine ⟨dirs, hloop, fun d => ?_⟩
  rw [hmem, List.length_pos_iff]

-- ---------------------------------------------------------------------------
-- The paths of an entry
-- ---------------------------------------------------------------------------

theorem targetDir_cases (target : Bytes) : ∃ u, Archive.targetDir target = u ++ [SLASH] ∧
    (target = [] ∧ u = [DOT] ∨ target = u ++ [SLASH] ∨ target = u ∧ u ≠ []) := by
  by_cases hnil : target = []
  · exact ⟨[DOT], by rw [hnil]; rfl, .inl ⟨hnil, rfl⟩⟩
  · have hlength : target.length ≠ 0 := mt List.length_eq_zero_iff.mp hnil
    by_cases hlast : target.getLast? = some SLASH
    · obtain ⟨u, hu⟩ := List.getLast?_eq_some_iff.mp hlast
      refine ⟨u, ?_, .inr (.inl hu)⟩
      simp only [Archive.targetDir, if_neg hlength, hlast, ne_eq, not_true_eq_false, if_false, ← hu]
    · refine ⟨target, ?_, .inr (.inr ⟨rfl, hnil⟩)⟩
      simp only [Archive.targetDir, if_neg hlength, ne_eq, hlast, not_false_eq_true, if_true]

/-- The slash that is put behind the target directory changes neither the directory nor
what leads to it. -/
theorem targetDir_spec (target : Bytes) : ∃ u, Archive.targetDir target = u ++ [SLASH] ∧
    ∀ cwd, resolve SLASH DOT cwd (u ++ [SLASH]) = resolve SLASH DOT cwd target ∧
      (u ≠ [] → Inside cwd target u) ∧
      (LeadsInside cwd target ↔
        ∀ dir, Parent SLASH dir u → dir ≠ [] → dir ≠ [DOT] → Inside cwd target dir) := by
  obtain ⟨u, htarget, hcases⟩ := targetDir_cases target
  refine ⟨u, htarget, fun cwd => ?_⟩
  rcases hcases with ⟨rfl, rfl⟩ | rfl | ⟨rfl, hne⟩
  · have hsame : resolve SLASH DOT cwd [DOT] = cwd := rfl
    refine ⟨?_, fun _ => ?_, ?_⟩
    · rw [resolve_nil, resolve_snoc (List.cons_ne_nil _ _), hsame]
    · rw [Inside, resolve_nil, hsame]
    · exact iff_of_true (fun dir h => absurd h (not_parent List.not_mem_nil))
        fun dir h => absurd h (not_parent (by decide))
  · have hself : u ≠ [] → Inside cwd (u ++ [SLASH]) u := fun hne => by rw [Inside, resolve_snoc hne]
    refine ⟨rfl, hself, fun h dir hdir => h dir (parent_append_cons.mpr (.inl hdir)),
      fun h dir hdir hne hdot => ?_⟩
    rcases parent_append_cons.mp hdir with hdir | rfl | ⟨q, -, hq⟩
    · exact h dir hdir hne hdot
    · exact hself hne
    · exact absurd hq (not_parent List.not_mem_nil)
  · exact ⟨resolve_snoc hne, fun _ => List.suffix_rfl, Iff.rfl⟩

/-- What `createDirectories` is called for and what is opened lies inside the target
directory just when the way to it does and the name steps inside it. -/
theorem entry_paths_iff (cwd : List Bytes) (target name : Bytes) :
    ((∀ dir, dir ≠ [DOT] ∧ dir ≠ [] ∧ Parent SLASH dir (Archive.targetDir target ++ name) →
          Inside cwd target dir) ∧
        Inside cwd target (Archive.targetDir target ++ name)) ↔
      LeadsInside cwd target ∧ StepsInside cwd target name := by
  obtain ⟨u, htarget, hspec⟩ := targetDir_spec target
  obtain ⟨hsame, hself, hleads⟩ := hspec cwd
  have hbelow : ∀ q, Inside cwd target (u ++ SLASH :: q) ↔
      resolve SLASH DOT cwd target <:+ walkPath SLASH DOT (resolve SLASH DOT cwd target) q := by
    intro q
    rw [Inside, resolve_append_cons, hsame]
  have hnotdot : ∀ q, u ++ SLASH :: q ≠ [DOT] := by
    intro q h
    cases u with
    | nil => exact absurd (List.cons.inj h).1 (by decide)
    | cons c u => exact List.append_ne_nil_of_right_ne_nil u (List.cons_ne_nil SLASH q) (List.cons.inj h).2
  rw [htarget, List.append_assoc, List.singleton_append, hleads]
  constructor
  · rintro ⟨hdirs, hpath⟩
    refine ⟨fun dir hdir hne hdot => hdirs dir ⟨hdot, hne, parent_append_cons.mpr (.inl hdir)⟩, ?_⟩
    refine or_iff_not_imp_left.mpr fun hroot => (stages_under_iff hroot [] name).mp ?_
    rintro q (rfl | hq)
    · exact (hbelow q).mp hpath
    · refine (hbelow q).mp (hdirs _ ⟨hnotdot q, by simp, ?_⟩)
      exact parent_append_cons.mpr (.inr (.inr ⟨q, rfl, hq⟩))
  · rintro ⟨hbefore, hsteps⟩
    have hstages : ∀ q, Stage SLASH q name → Inside cwd target (u ++ SLASH :: q) := by
      intro q hq
      rw [hbelow]
      rcases hsteps with hroot | hdescends
      · rw [hroot]
        exact List.nil_suffix
      · by_cases hroot : resolve SLASH DOT cwd target = []
        · rw [hroot]
          exact List.nil_suffix
        · exact (stages_under_iff hroot [] name).mpr hdescends q hq
    refine ⟨?_, hstages name (.inl rfl)⟩
    rintro dir ⟨hdot, hne, hdir⟩
    rcases parent_append_cons.mp hdir with hdir | rfl | ⟨q, rfl, hq⟩
    · exact hbefore dir hdir hne hdot
    · exact hself hne
    · exact hstages q (.inr hq)

-- ---------------------------------------------------------------------------
-- One step
-- ---------------------------------------------------------------------------

section

variable {n : Nat} {cwd : List Bytes} {target : FileName} {outList : List Bytes} {a : Archive n}

theorem handle_pos_iff (fd : Int) : 0 < File.handle fd ↔ 0 < fd := by
  rw [File.handle]
  split <;> omega

theorem not_mem_entryPath (target name : FileName) : 0 ∉ Archive.targetDir target.1 ++ name.1 := by
  obtain ⟨u, htarget, hcases⟩ := targetDir_cases target.1
  have hu : 0 ∉ u := by
    rcases hcases with ⟨-, rfl⟩ | hsame | ⟨hsame, -⟩
    · decide
    · exact fun h => target.2 (hsame ▸ List.mem_append_left _ h)
    · exact hsame ▸ target.2
  rw [htarget]
  simp [hu, name.2, SLASH]

theorem extract_spec (e : ArchiveEntry n) (hnul : 0 ∉ path) (entries : List (ArchiveEntry n))
    (buffer : { b : Bytes // b.length = n }) (outList : List Bytes) :
    ∃ es, e.extract path entries buffer outList =
        some (if 0 < e.fd then .copying e.reads (.start buffer) entries (outList ++ [path])
          else .returned (-3) outList, es) ∧
      ∀ Q : Bytes → Prop, (∀ ev ∈ es, Q ev.path) ↔
        (∀ dir, dir ≠ [DOT] ∧ dir ≠ [] ∧ Parent SLASH dir path → Q dir) ∧ Q path := by
  obtain ⟨dirs, hdirs, hmem⟩ := createDirectories_eq e.mkdir hnul
  have hmade : ∀ Q : Bytes → Prop, (∀ ev ∈ dirs.map (ExtractEv.mkdir · Archive.mode), Q ev.path) ↔
      ∀ dir, dir ≠ [DOT] ∧ dir ≠ [] ∧ Parent SLASH dir path → Q dir := by
    intro Q
    simp only [List.forall_mem_map, ExtractEv.path, hmem]
  have hpath : c_str path = path := c_str_eq hnul
  by_cases hfd : 0 < e.fd
  · have hhandle : ¬File.handle e.fd ≤ 0 := Int.not_le.mpr ((handle_pos_iff e.fd).mpr hfd)
    refine ⟨dirs.map (.mkdir · Archive.mode) ++
      [.opened path (Archive.O_CREAT ||| Archive.O_RDWR) Archive.mode] ++ [.listed path], ?_, fun Q => ?_⟩
    · simp only [ArchiveEntry.extract, hdirs, Option.map_some, ne_eq, not_true_eq_false, if_false, if_neg hhandle,
        if_pos hfd, hpath]
    · rw [List.forall_mem_append, List.forall_mem_append, List.forall_mem_singleton, List.forall_mem_singleton,
        hmade Q, and_assoc]
      exact and_congr_right fun _ => and_self_iff
  · have hhandle : File.handle e.fd ≤ 0 := Int.not_lt.mp (mt (handle_pos_iff e.fd).mp hfd)
    refine ⟨dirs.map (.mkdir · Archive.mode) ++
      [.opened path (Archive.O_CREAT ||| Archive.O_RDWR) Archive.mode], ?_, fun Q => ?_⟩
    · simp only [ArchiveEntry.extract, hdirs, Option.map_some, ne_eq, not_true_eq_false, if_false, if_pos hhandle,
        if_neg hfd, hpath]
    · rw [List.forall_mem_append, List.forall_mem_singleton, hmade Q]
      rfl

def GoodName (cwd : List Bytes) (target name : Bytes) : Prop :=
  LeadsInside cwd target ∧ StepsInside cwd target name

theorem header_step (a : Archive n) (cwd : List Bytes) (target : FileName) (outList : List Bytes)
    (e : ArchiveEntry n) (hsize : 0 < e.size) (entries : List (ArchiveEntry n))
    (buffer : { b : Bytes // b.length = n }) (listed : List Bytes) :
    ∃ es, (a.decompress target.1 outList).step (.header (e :: entries) buffer listed) () =
        some (if 0 < e.fd then .copying e.reads (.start buffer) entries
            (listed ++ [Archive.targetDir target.1 ++ e.pathname.1])
          else .returned (-3) listed, es) ∧
      ((∀ ev ∈ es, Inside cwd target.1 ev.path) ↔ GoodName cwd target.1 e.pathname.1) := by
  obtain ⟨es, hextract, hpaths⟩ := extract_spec e (not_mem_entryPath target e.pathname) entries buffer listed
  refine ⟨es, (if_pos hsize).trans hextract, ?_⟩
  rw [hpaths (Inside cwd target.1), entry_paths_iff, GoodName]

-- ---------------------------------------------------------------------------
-- Runs
-- ---------------------------------------------------------------------------

theorem ends_of_leaves {reads : DataReads n} (hbefore : ∀ i < k, reads.ret i ≠ 0) (h : reads.ret k = 0) :
    reads.Ends := by
  refine ⟨k, ⟨Int64.le_of_eq h, fun i hi => ?_⟩, h⟩
  by_contra hpos
  have herror : reads.ret i < 0 := Int64.lt_of_le_of_ne (Int64.not_lt.mp hpos) (hbefore i hi)
  exact Int64.lt_irrefl (h ▸ reads.errors_persist herror (Nat.le_of_lt hi))

def Extraction.Ok (P : Bytes → Prop) : Extraction n → Prop
  | .header entries _ _ => ExtractsOnly P entries
  | .copying reads x entries _ => (∀ i < x.calls, reads.ret i ≠ 0) ∧ (reads.Ends → ExtractsOnly P entries)
  | .returned .. => True

theorem decompress_step {s : Extraction n} (hok : s.Ok (GoodName cwd target.1))
    (hs : (a.decompress target.1 outList).step s () = some (s', es)) :
    (∀ ev ∈ es, Inside cwd target.1 ev.path) ∧ s'.Ok (GoodName cwd target.1) := by
  cases s with
  | header entries buffer listed =>
    cases entries with
    | nil =>
      cases hs
      exact ⟨nofun, trivial⟩
    | cons e entries =>
      by_cases hsize : 0 < e.size
      · obtain ⟨es', hstep, hinside⟩ := header_step a cwd target outList e hsize
          entries buffer listed
        rw [hstep] at hs
        cases hs
        refine ⟨hinside.mpr (hok.1 hsize), ?_⟩
        split
        next hfd => exact ⟨nofun, fun hends => hok.2 fun _ => ⟨hfd, hends⟩⟩
        next => trivial
      · have hstep : (a.decompress target.1 outList).step (.header (e :: entries) buffer listed) () =
            some (.header entries buffer listed, []) := if_neg hsize
        rw [hstep] at hs
        cases hs
        exact ⟨nofun, hok.2 fun h => absurd h hsize⟩
  | copying reads x entries listed =>
    obtain ⟨hbefore, hrest⟩ := hok
    by_cases hzero : reads.ret x.calls = 0
    · simp only [Archive.decompress, body_ends hzero] at hs
      cases hs
      exact ⟨nofun, hrest (ends_of_leaves hbefore hzero)⟩
    · simp only [Archive.decompress, body_goes hzero] at hs
      cases hs
      refine ⟨nofun, fun i hi => ?_, hrest⟩
      rcases Nat.lt_succ_iff_lt_or_eq.mp hi with hi | rfl
      · exact hbefore i hi
      · exact hzero
  | returned => cases hs

theorem steps_of_copied (e : ArchiveEntry n) (hcopied : e.Copied) (hsize : 0 < e.size)
    (entries : List (ArchiveEntry n)) (buffer : { b : Bytes // b.length = n }) (listed : List Bytes) :
    ∃ tr buffer' listed', (a.decompress target.1 outList).Steps Machine.anyStep
      (.header (e :: entries) buffer listed) tr (.header entries buffer' listed') := by
  obtain ⟨hfd, k, hstop, hend⟩ := hcopied
  obtain ⟨es, hstep, -⟩ := header_step a [] target outList e hsize entries buffer listed
  rw [if_pos hfd] at hstep
  obtain ⟨x, ⟨fuel, hloop⟩, -⟩ := copies_of_ends hstop hend buffer
  have hgo : ∀ x x' : CopyLoop n, x.body e.reads = .inl x' → ∀ listed,
      ∃ es, (a.decompress target.1 outList).step (.copying e.reads x entries listed) () =
        some (.copying e.reads x' entries listed, es) := by
    intro x x' hbody listed
    exact ⟨[], by simp only [Archive.decompress, hbody]⟩
  have hleave : ∀ x x' : CopyLoop n, x.body e.reads = .inr x' → ∀ listed,
      ∃ es, (a.decompress target.1 outList).step (.copying e.reads x entries listed) () =
        some (.header entries x'.buffer listed, es) := by
    intro x x' hbody listed
    exact ⟨[], by simp only [Archive.decompress, hbody]⟩
  obtain ⟨tr, hsteps⟩ := steps_of_loop (CopyLoop.body e.reads)
    (f := fun x => Extraction.copying e.reads x entries (listed ++ [Archive.targetDir target.1 ++ e.pathname.1]))
    (g := fun x => Extraction.header entries x.buffer (listed ++ [Archive.targetDir target.1 ++ e.pathname.1]))
    (fun x x' h => hgo x x' h _) (fun x x' h => hleave x x' h _) hloop
  exact ⟨_, _, _, (Machine.Steps.one trivial hstep).trans hsteps⟩

theorem extractsOnly_of_stays (h : StaysInside cwd target outList a)
    (hrun : (a.decompress target.1 outList).Run tr (.header entries buffer listed)) :
    ExtractsOnly (GoodName cwd target.1) entries := by
  induction entries generalizing tr buffer listed with
  | nil => trivial
  | cons e entries ih =>
    by_cases hsize : 0 < e.size
    · obtain ⟨es, hstep, hinside⟩ := header_step a cwd target outList e hsize
        entries buffer listed
      refine ⟨fun _ => hinside.mp fun ev hev => ?_, fun hcopied => ?_⟩
      · exact h _ _ (hrun.step trivial hstep) ev (List.mem_append_right _ hev)
      · obtain ⟨tr', buffer', listed', hsteps⟩ := steps_of_copied e (hcopied hsize) hsize entries buffer listed
        exact ih (hrun.trans hsteps)
    · have hstep : (a.decompress target.1 outList).step (.header (e :: entries) buffer listed) () =
          some (.header entries buffer listed, []) := if_neg hsize
      exact ⟨fun hpos => absurd hpos hsize, fun _ => ih (hrun.step trivial hstep)⟩

end

/-- Extraction stays inside the target directory if and only if every name extracted steps
inside it and what leads to the target directory is not outside it. -/
theorem decompress_stays_inside_iff (cwd : List Bytes) (target : FileName) (outList : List Bytes)
    (a : Archive n) :
    StaysInside cwd target outList a ↔ (a.type_ = .DECOMPRESS →
      ExtractsOnly (fun name => LeadsInside cwd target.1 ∧ StepsInside cwd target.1 name) a.archive_) := by
  constructor
  · intro h htype
    have hinit : (a.decompress target.1 outList).init = .header a.archive_ a.buffer outList :=
      if_neg (not_not.mpr htype)
    have hrun : (a.decompress target.1 outList).Run [] (.header a.archive_ a.buffer outList) := hinit ▸ .refl
    exact extractsOnly_of_stays h hrun
  · intro h tr s hrun
    have hinit : (a.decompress target.1 outList).init.Ok (GoodName cwd target.1) := by
      by_cases htype : a.type_ = .DECOMPRESS
      · simp only [Archive.decompress, ne_eq, htype, not_true_eq_false, if_false]
        exact h htype
      · simp only [Archive.decompress, ne_eq, htype, not_false_eq_true, if_true]
        trivial
    have hboth : (∀ ev ∈ tr, Inside cwd target.1 ev.path) ∧ s.Ok (GoodName cwd target.1) := by
      refine hrun.invariant (I := fun tr s => (∀ ev ∈ tr, Inside cwd target.1 ev.path) ∧
        s.Ok (GoodName cwd target.1)) ⟨nofun, hinit⟩ ?_
      rintro tr s ⟨⟩ s' es - ⟨hinside, hok⟩ - hs
      obtain ⟨hes, hok'⟩ := decompress_step hok hs
      exact ⟨List.forall_mem_append.mpr ⟨hinside, hes⟩, hok'⟩
    exact hboth.1

def climbing : Archive 4 where
  type_ := .DECOMPRESS
  buffer := ⟨[0, 0, 0, 0], rfl⟩
  archive_ := [{
    size := 1
    pathname := ⟨[0x2e, 0x2e, 0x2f, 0x78], by decide⟩
    mkdir := fun _ => -1
    fd := 3
    reads := damaged }]

theorem climbing_leaves : ¬StaysInside [] ⟨[0x6f, 0x75, 0x74], by decide⟩ [] climbing := by
  intro h
  have hr : ((climbing.decompress [0x6f, 0x75, 0x74] []).replay (climbing.decompress [0x6f, 0x75, 0x74] []).init
      [()]).isSome := rfl
  have hopened := h _ _ (Machine.steps_of_replay (Option.some_get hr).symm)
    (.opened [0x6f, 0x75, 0x74, 0x2f, 0x2e, 0x2e, 0x2f, 0x78] 0o102 0o775) (by decide)
  exact absurd hopened (by decide)

end Andren.Base
