import Andren.Base.ArchiveDecompress
import Andren.Machine.DirTree

/-!
# Making the directories of a path

`File::createDirectories` calls `mkdir` for what stands before each slash of a path, and
for an archive it goes on whatever `mkdir` says. Here `mkdir` works on directories that
are there (`Disk`): it fails for a path that is there, or whose parent is not, and changes
nothing then.
-/

namespace Andren.Base

open Machines

/-- Directories with a root, the node 0, and a working directory unless that was removed. -/
structure Disk where
  tree : DirTree Bytes
  cwd : Option Nat
  root_lt : 0 < tree.count
  cwd_lt : ∀ n, cwd = some n → n < tree.count

def component (c : Bytes) : Move Bytes :=
  if c = [DOT] then .stay else if c = [DOT, DOT] then .up else .name c

def components (p : Bytes) : List (Move Bytes) := ((p.splitOn SLASH).filter (· ≠ [])).map component

namespace Disk

def start (s : Disk) (p : Bytes) : Option Nat := if p.head? = some SLASH then some 0 else s.cwd

def made (s : Disk) (p : Bytes) : Option (DirTree Bytes) := (s.start p).bind (s.tree.mkdir · (components p))

theorem extends_made (s : Disk) (p : Bytes) : s.tree.Extends ((s.made p).getD s.tree) := by
  cases hmade : s.made p with
  | none => exact .refl _
  | some t =>
    obtain ⟨n, -, hmk⟩ := Option.bind_eq_some_iff.mp hmade
    exact DirTree.extends_mkdir hmk

def mkdir (s : Disk) (p : Bytes) : Disk × Int :=
  ({ s with
      tree := (s.made p).getD s.tree
      root_lt := Nat.lt_of_lt_of_le s.root_lt (s.extends_made p).count
      cwd_lt := fun n hn => Nat.lt_of_lt_of_le (s.cwd_lt n hn) (s.extends_made p).count },
    if (s.made p).isSome then 0 else -1)

def IsDirectory (s : Disk) (p : Bytes) : Prop :=
  p ≠ [] ∧ ∃ n d, s.start p = some n ∧ s.tree.find n (components p) = some (.dir d)

/-- Something that is no directory is in the place of `p`, or will be when the directories
in front of it are made. -/
def Occupied (s : Disk) (p : Bytes) : Prop :=
  ∃ n, s.start p = some n ∧ s.tree.complete.find (n, []) (components p) = some .other

end Disk

/-- One pass of the loop of `createDirectories`, for a `mkdir` that changes a state. -/
def File.createDirectoriesPass (mkdir : σ → Bytes → σ × Int) (path : Bytes) (ignoreErr : Bool) (s : Nat × σ) :
    (Nat × σ) ⊕ (Int × σ) :=
  match find_first_of path SLASH (s.1 + 1) with
  | none => .inr (0, s.2)
  | some pos =>
    let dir := path.take pos
    if dir = [DOT] then .inl (pos, s.2)
    else
      let (s', ret) := mkdir s.2 (c_str dir)
      if !ignoreErr ∧ ret ≠ 0 then .inr (-1, s') else .inl (pos, s')

def Disk.call (s : Disk × List Bytes) (dir : Bytes) : (Disk × List Bytes) × Int :=
  (((s.1.mkdir dir).1, s.2 ++ [dir]), (s.1.mkdir dir).2)

def Disk.createDirectories (s : Disk) (path : Bytes) (ignoreErr : Bool) (fuel : Nat) :
    Option (Int × Disk × List Bytes) :=
  loop (File.createDirectoriesPass Disk.call path ignoreErr) fuel (0, s, [])

theorem createDirectoriesBody_eq (mkdir : Bytes → Int) (path : Bytes) (ignoreErr : Bool) :
    File.createDirectoriesBody mkdir path ignoreErr =
      File.createDirectoriesPass (fun dirs dir => (dirs ++ [dir], mkdir dir)) path ignoreErr := rfl

-- ---------------------------------------------------------------------------
-- Components of the paths that lead to a path
-- ---------------------------------------------------------------------------

theorem last_slash (d : Bytes) : SLASH ∉ d ∨ ∃ u c, d = u ++ SLASH :: c ∧ SLASH ∉ c := by
  induction d using path_induction SLASH with
  | hlast c hc => exact .inl hc
  | hcons c p hc ih =>
    rcases ih with hp | ⟨u, c', rfl, hc'⟩
    · exact .inr ⟨c, p, rfl, hp⟩
    · exact .inr ⟨c ++ SLASH :: u, c', by simp, hc'⟩

theorem components_append (u c : Bytes) : components (u ++ SLASH :: c) = components u ++ components c := by
  simp only [components, List.splitOn_append_cons_self, List.filter_append, List.map_append]

theorem components_single (hc : SLASH ∉ c) : components c = [] ∨ ∃ m, components c = [m] := by
  rw [components, List.splitOn_eq_singleton hc]
  by_cases hnil : c = []
  · exact .inl (by simp [hnil])
  · exact .inr ⟨component c, by simp [hnil]⟩

theorem c_str_append (u c : Bytes) :
    c_str (u ++ SLASH :: c) = if 0 ∈ u then c_str u else u ++ SLASH :: c_str c := by
  induction u with
  | nil => rfl
  | cons a u ih =>
    by_cases ha : a = 0
    · simp [c_str, ha]
    · have hcons : ∀ v, c_str (a :: v) = a :: c_str v := fun v => by simp [c_str, ha]
      have hmem : 0 ∈ a :: u ↔ 0 ∈ u := List.mem_cons.trans (or_iff_right (Ne.symm ha))
      simp only [List.cons_append, hcons, ih, hmem]
      split <;> rfl

/-- Behind the one before it, a path that leads to `path` has at most one component. -/
theorem components_next (hd : Parent SLASH d path) : ∃ u, (u = [] ∨ Parent SLASH u path ∧ u.length < d.length) ∧
    (components (c_str d) = components (c_str u) ∨ ∃ m, components (c_str d) = components (c_str u) ++ [m]) := by
  rcases last_slash d with hno | ⟨u, c, rfl, hc⟩
  · have hstr : SLASH ∉ c_str d := fun h => hno ((List.takeWhile_sublist _).subset h)
    exact ⟨[], .inl rfl, components_single hstr⟩
  · have hu : Parent SLASH u path := List.IsPrefix.trans ⟨c ++ [SLASH], by simp⟩ hd
    refine ⟨u, .inr ⟨hu, by simp⟩, ?_⟩
    rw [c_str_append]
    split
    · exact .inl rfl
    · rename_i hnul
      rw [components_append, c_str_eq hnul]
      have hstr : SLASH ∉ c_str c := fun h => hc ((List.takeWhile_sublist _).subset h)
      rcases components_single hstr with hnil | ⟨m, hm⟩
      · exact .inl (by rw [hnil, List.append_nil])
      · exact .inr ⟨m, by rw [hm]⟩

theorem start_c_str (s : Disk) (hd : Parent SLASH d path) (hne : c_str d ≠ []) :
    s.start (c_str d) = s.start path := by
  obtain ⟨r, rfl⟩ := hd
  cases d with
  | nil => exact absurd rfl hne
  | cons a d =>
    have ha : a ≠ 0 := by
      rintro rfl
      exact hne rfl
    simp [Disk.start, c_str, ha]

-- ---------------------------------------------------------------------------
-- What a pass makes
-- ---------------------------------------------------------------------------

theorem Disk.start_lt (s : Disk) (hn : s.start p = some n) : n < s.tree.count := by
  unfold Disk.start at hn
  split at hn
  · cases hn
    exact s.root_lt
  · exact s.cwd_lt n hn

def CallsUpTo (path : Bytes) (pos : Nat) (dirs : List Bytes) : Prop :=
  dirs.Pairwise (·.length < ·.length) ∧
    ∀ d, d ∈ dirs ↔ d ≠ [DOT] ∧ d ≠ [] ∧ Parent SLASH d path ∧ d.length ≤ pos

structure MadeUpTo (s₀ : Disk) (path : Bytes) (pos : Nat) (s : Disk) : Prop where
  grown : ∃ at_, DirTree.Grown s₀.tree s.tree at_
  cwd : s.cwd = s₀.cwd
  there : ∀ n, s₀.start path = some n → (∀ d, Parent SLASH d path → ¬s₀.Occupied (c_str d)) →
    ∀ d, Parent SLASH d path → d.length ≤ pos → ∃ k, s.tree.find n (components (c_str d)) = some (.dir k)

theorem callsUpTo_zero (path : Bytes) : CallsUpTo path 0 [] := by
  refine ⟨.nil, fun d => iff_of_false List.not_mem_nil ?_⟩
  rintro ⟨-, hne, -, hle⟩
  exact hne (List.length_eq_zero_iff.mp (Nat.le_zero.mp hle))

theorem parent_le_next (h : find_first_of path SLASH (pos + 1) = some p) :
    Parent SLASH d path ∧ d.length ≤ p ↔ d = path.take p ∨ Parent SLASH d path ∧ d.length ≤ pos := by
  obtain ⟨hle, hlt, hparent, hfirst⟩ := find_first_of_some h
  have hlength : (path.take p).length = p := List.length_take_of_le (Nat.le_of_lt hlt)
  constructor
  · rintro ⟨hd, hdle⟩
    by_cases hpos : d.length ≤ pos
    · exact .inr ⟨hd, hpos⟩
    · have heq := Nat.le_antisymm hdle (hfirst d hd (by omega))
      exact .inl (heq ▸ (parent_iff.mp hd).1)
  · rintro (rfl | ⟨hd, hpos⟩)
    · exact ⟨hparent, Nat.le_of_eq hlength⟩
    · exact ⟨hd, by omega⟩

theorem CallsUpTo.next (h : CallsUpTo path pos dirs) (hfind : find_first_of path SLASH (pos + 1) = some p) :
    CallsUpTo path p (if path.take p = [DOT] then dirs else dirs ++ [path.take p]) := by
  obtain ⟨hle, hlt, -, -⟩ := find_first_of_some hfind
  have hlength : (path.take p).length = p := List.length_take_of_le (Nat.le_of_lt hlt)
  have hmem : ∀ d, (d ≠ [DOT] ∧ d ≠ [] ∧ Parent SLASH d path ∧ d.length ≤ p) ↔
      d ∈ dirs ∨ d ≠ [DOT] ∧ d = path.take p := by
    intro d
    rw [h.2, parent_le_next hfind]
    have hne : d = path.take p → d ≠ [] := by
      rintro rfl hnil
      rw [hnil, List.length_nil] at hlength
      omega
    tauto
  split
  · rename_i hdot
    refine ⟨h.1, fun d => ?_⟩
    rw [hmem, hdot]
    tauto
  · rename_i hdot
    refine ⟨?_, fun d => ?_⟩
    · rw [List.pairwise_append]
      refine ⟨h.1, List.pairwise_singleton .., ?_⟩
      rintro d hd _ (_ | ⟨_, ⟨⟩⟩)
      have hpos := ((h.2 d).mp hd).2.2.2
      omega
    · rw [hmem, List.mem_append, List.mem_singleton]
      refine or_congr_right ⟨?_, And.right⟩
      rintro rfl
      exact ⟨hdot, rfl⟩

theorem madeUpTo_zero (s : Disk) (path : Bytes) : MadeUpTo s path 0 s := by
  refine ⟨⟨_, DirTree.grown_refl s.tree⟩, rfl, fun n _ _ d _ hle => ?_⟩
  rw [List.length_eq_zero_iff.mp (Nat.le_zero.mp hle)]
  exact ⟨n, rfl⟩

theorem MadeUpTo.find_next (h : MadeUpTo s₀ path pos s) (hn : s₀.start path = some n)
    (hfree : ∀ d, Parent SLASH d path → ¬s₀.Occupied (c_str d)) (hd : Parent SLASH d path)
    (hbefore : ∀ u, Parent SLASH u path → u.length < d.length → u.length ≤ pos) :
    ∃ k, (s.mkdir (c_str d)).1.tree.find n (components (c_str d)) = some (.dir k) := by
  have hlt : n < s.tree.count := s.start_lt (p := path) (by rw [Disk.start, h.cwd]; exact hn)
  obtain ⟨u, hu, hcomponents⟩ := components_next hd
  obtain ⟨k, hk⟩ : ∃ k, s.tree.find n (components (c_str u)) = some (.dir k) := by
    rcases hu with rfl | ⟨hu, hulength⟩
    · exact ⟨n, rfl⟩
    · exact h.there n hn hfree u hu (hbefore u hu hulength)
  rcases hcomponents with hsame | ⟨m, hm⟩
  · rw [hsame]
    exact ⟨k, (s.extends_made _).find hlt hk⟩
  · have hne : c_str d ≠ [] := by
      intro hnil
      rw [hnil] at hm
      exact List.append_ne_nil_of_right_ne_nil _ (List.cons_ne_nil m []) hm.symm
    have hstart : s.start (c_str d) = some n := by
      rw [start_c_str s hd hne, Disk.start, h.cwd]
      exact hn
    have hmkdir : (s.mkdir (c_str d)).1.tree = (s.tree.mkdir n (components (c_str d))).getD s.tree := by
      simp only [Disk.mkdir, Disk.made, hstart, Option.bind_some]
    rw [hmkdir, hm]
    refine DirTree.mkdir_spec hlt hk fun hother => hfree d hd ⟨n, ?_, ?_⟩
    · rw [start_c_str s₀ hd hne, hn]
    · obtain ⟨at_, hgrown⟩ := h.grown
      have hold := hgrown.find hlt (hm ▸ hother)
      rwa [hgrown.old n (s₀.start_lt hn)] at hold

theorem MadeUpTo.next (h : MadeUpTo s₀ path pos s) (hfind : find_first_of path SLASH (pos + 1) = some p) :
    MadeUpTo s₀ path p (if path.take p = [DOT] then s else (s.mkdir (c_str (path.take p))).1) := by
  obtain ⟨hle, hlt, hparent, -⟩ := find_first_of_some hfind
  have hlength : (path.take p).length = p := List.length_take_of_le (Nat.le_of_lt hlt)
  have hbefore : ∀ u, Parent SLASH u path → u.length < (path.take p).length → u.length ≤ pos := by
    intro u hu hulength
    rcases (parent_le_next hfind).mp ⟨hu, by omega⟩ with rfl | ⟨-, hpos⟩
    · exact absurd hulength (Nat.lt_irrefl _)
    · exact hpos
  split
  · rename_i hdot
    refine ⟨h.grown, h.cwd, fun n hn hfree d hd hdle => ?_⟩
    rcases (parent_le_next hfind).mp ⟨hd, hdle⟩ with rfl | ⟨-, hpos⟩
    · rw [hdot]
      exact ⟨n, rfl⟩
    · exact h.there n hn hfree d hd hpos
  · rename_i hdot
    refine ⟨?_, h.cwd, fun n hn hfree d hd hdle => ?_⟩
    · obtain ⟨at_, hgrown⟩ := h.grown
      simp only [Disk.mkdir, Disk.made]
      cases s.start (c_str (path.take p)) with
      | none => exact ⟨at_, hgrown⟩
      | some n => exact hgrown.mkdir n _
    · rcases (parent_le_next hfind).mp ⟨hd, hdle⟩ with rfl | ⟨-, hpos⟩
      · exact h.find_next hn hfree hparent hbefore
      · obtain ⟨k, hk⟩ := h.there n hn hfree d hd hpos
        have hn' : n < s.tree.count := s.start_lt (p := path) (by rw [Disk.start, h.cwd]; exact hn)
        exact ⟨k, (s.extends_made _).find hn' hk⟩

def PassOk (s₀ : Disk) (path : Bytes) (x : Nat × Disk × List Bytes) : Prop :=
  x.1 ≤ path.length ∧ MadeUpTo s₀ path x.1 x.2.1 ∧
    ∃ dirs : List Bytes, x.2.2 = dirs.map c_str ∧ CallsUpTo path x.1 dirs

theorem pass_next (h : PassOk s₀ path x) (hfind : find_first_of path SLASH (x.1 + 1) = some p) :
    ∃ y, File.createDirectoriesPass Disk.call path true x = .inl (p, y) ∧ PassOk s₀ path (p, y) := by
  obtain ⟨pos, s, calls⟩ := x
  obtain ⟨hpos, hmade, dirs, hcalls, hdirs⟩ := h
  obtain ⟨hle, hlt, -, -⟩ := find_first_of_some hfind
  have hmade' := hmade.next hfind
  have hdirs' := hdirs.next hfind
  simp only [File.createDirectoriesPass, hfind]
  split
  · rename_i hdot
    rw [if_pos hdot] at hmade' hdirs'
    exact ⟨_, rfl, Nat.le_of_lt hlt, hmade', dirs, hcalls, hdirs'⟩
  · rename_i hdot
    rw [if_neg hdot] at hmade' hdirs'
    exact ⟨_, rfl, Nat.le_of_lt hlt, hmade', _, by simp [Disk.call, show calls = _ from hcalls], hdirs'⟩

/-- `createDirectories` comes to an end for every path. It calls `mkdir` for what stands
before the slashes of the path, in increasing length, and leaves all of that there unless
something else is in the way. -/
theorem createDirectories_makes_all (s : Disk) (path : Bytes) : ∃ (s' : Disk) (dirs : List Bytes),
    Returns (s.createDirectories path true) (0, s', dirs.map c_str) ∧
    dirs.Pairwise (·.length < ·.length) ∧ (∀ d, d ∈ dirs ↔ d ≠ [DOT] ∧ d ≠ [] ∧ Parent SLASH d path) ∧
    ((s.start path).isSome → (∀ d, Parent SLASH d path → ¬s.Occupied (c_str d)) →
      ∀ d, Parent SLASH d path → c_str d ≠ [] → s'.IsDirectory (c_str d)) := by
  have hinit : PassOk s path (0, s, []) := ⟨Nat.zero_le _, madeUpTo_zero s path, [], rfl, callsUpTo_zero path⟩
  obtain ⟨r, hreturns, hret, pos, ⟨-, hmade, dirs, hcalls, hdirs⟩, hdone⟩ := loop_returns
    (File.createDirectoriesPass Disk.call path true) (I := PassOk s path)
    (Q := fun r => r.1 = 0 ∧ ∃ pos, PassOk s path (pos, r.2) ∧ ∀ d, Parent SLASH d path → d.length ≤ pos)
    Nat.lt_wfRel.wf (fun x => path.length - x.1) (fun x hx => by
      cases hfind : find_first_of path SLASH (x.1 + 1) with
      | some p =>
        obtain ⟨y, hbody, hy⟩ := pass_next hx hfind
        obtain ⟨hle, hlt, -, -⟩ := find_first_of_some hfind
        exact .inl ⟨_, hbody, hy, show path.length - p < path.length - x.1 by omega⟩
      | none =>
        refine .inr ⟨(0, x.2), by simp only [File.createDirectoriesPass, hfind], rfl, x.1, hx, fun d hd => ?_⟩
        exact Nat.lt_succ_iff.mp (find_first_of_none hfind hd)) hinit
  obtain ⟨ret, s', calls⟩ := r
  obtain rfl : ret = 0 := hret
  obtain rfl : calls = dirs.map c_str := hcalls
  refine ⟨s', dirs, hreturns, hdirs.1, fun d => ?_, fun hstart hfree d hd hne => ⟨hne, ?_⟩⟩
  · rw [hdirs.2]
    exact and_congr_right fun _ => and_congr_right fun _ => and_iff_left_of_imp (hdone d)
  · obtain ⟨n, hn⟩ := Option.isSome_iff_exists.mp hstart
    obtain ⟨k, hk⟩ := hmade.there n hn hfree d hd (hdone d hd)
    refine ⟨n, k, ?_, hk⟩
    rw [start_c_str s' hd hne, Disk.start, hmade.cwd]
    exact hn

theorem not_occupied {s : Disk} (h : ∀ n b, s.tree.entry n b ≠ some .other) (p : Bytes) : ¬s.Occupied p := by
  rintro ⟨n, -, hfind⟩
  rcases List.eq_nil_or_concat (components p) with hnil | ⟨ms, m, hm⟩
  · rw [hnil] at hfind
    cases hfind
  · rw [hm, List.concat_eq_append] at hfind
    obtain ⟨⟨d, cs⟩, -, hmove⟩ := Directories.find_concat_some.mp hfind
    cases m with
    | stay => cases hmove
    | up => cases hmove
    | name b =>
      cases cs with
      | cons c cs => cases hmove
      | nil =>
        simp only [Directories.move, DirTree.complete] at hmove
        split at hmove
        · cases hmove
        · rename_i hother
          exact h d b hother
        · cases hmove

def Disk.empty : Disk where
  tree := ⟨⟨fun _ _ => none, fun _ => 0⟩, 1, by simp, by simp, fun _ _ => Nat.one_pos⟩
  cwd := some 0
  root_lt := Nat.one_pos
  cwd_lt := by simp

theorem createDirectories_makes_all_empty : ∃ (s' : Disk) (dirs : List Bytes),
    Returns (Disk.empty.createDirectories [0x61, 0x2f, 0x2e, 0x2e, 0x2f, 0x2f, 0x62, 0x2f, 0x63] true)
      (0, s', dirs.map c_str) ∧ s'.IsDirectory [0x61, 0x2f, 0x2e, 0x2e, 0x2f, 0x2f, 0x62] := by
  obtain ⟨s', dirs, hreturns, -, -, hmade⟩ := createDirectories_makes_all Disk.empty
    [0x61, 0x2f, 0x2e, 0x2e, 0x2f, 0x2f, 0x62, 0x2f, 0x63]
  refine ⟨s', dirs, hreturns, ?_⟩
  exact hmade rfl (fun _ _ => not_occupied (by simp [Disk.empty]) _) [0x61, 0x2f, 0x2e, 0x2e, 0x2f, 0x2f, 0x62]
    ⟨[0x63], rfl⟩ (by decide)

end Andren.Base
