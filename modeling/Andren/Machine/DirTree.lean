import Mathlib.Data.List.Induction

/-!
# Directories

Directories are nodes; under each name a directory has another one, something that is no
directory, or nothing. A path is read name by name from a directory (`find`). Making a
directory at a path whose parent is there adds one node, and takes nothing away.

In the completion of a tree every name that is free leads to a directory of its own. What
is made from a tree step by step maps into its completion (`Grown`), so that what stands
in the way of a path can be read off the tree one begins with.
-/

namespace Machines

/-- What a directory has under a name: a directory, or something else. -/
inductive Entry (ν : Type u)
  | dir (n : ν)
  | other
  deriving DecidableEq

def Entry.map (f : ν → μ) : Entry ν → Entry μ
  | .dir n => .dir (f n)
  | .other => .other

/-- One component of a path. -/
inductive Move (β : Type v)
  | stay
  | up
  | name (b : β)
  deriving DecidableEq

structure Directories (ν : Type u) (β : Type v) where
  entry : ν → β → Option (Entry ν)
  parent : ν → ν

namespace Directories

variable {ν : Type u} {β : Type v}

def move (t : Directories ν β) (n : ν) : Move β → Option (Entry ν)
  | .stay => some (.dir n)
  | .up => some (.dir (t.parent n))
  | .name b => t.entry n b

def follow (t : Directories ν β) (e : Option (Entry ν)) (m : Move β) : Option (Entry ν) :=
  match e with
  | some (.dir n) => t.move n m
  | _ => none

def find (t : Directories ν β) (n : ν) (ms : List (Move β)) : Option (Entry ν) := ms.foldl t.follow (some (.dir n))

theorem find_concat (t : Directories ν β) (n : ν) (ms : List (Move β)) (m : Move β) :
    t.find n (ms ++ [m]) = t.follow (t.find n ms) m := by
  rw [find, List.foldl_append]
  rfl

theorem find_concat_some {t : Directories ν β} :
    t.find n (ms ++ [m]) = some e ↔ ∃ d, t.find n ms = some (.dir d) ∧ t.move d m = some e := by
  rw [find_concat]
  rcases t.find n ms with _ | ⟨d⟩ | _ <;> simp [follow]

end Directories

/-- Finitely many directories. -/
structure DirTree (β : Type v) extends Directories Nat β where
  count : Nat
  entry_lt : ∀ n b e, entry n b = some e → n < count
  dir_lt : ∀ n b m, entry n b = some (.dir m) → m < count
  parent_lt : ∀ n, n < count → parent n < count

namespace DirTree

variable {β : Type v}

/-- Every name that is free in `t` leads to a directory that is missing, which is told by
the directory of `t` above it and the names from there, the last one first. -/
def complete (t : DirTree β) : Directories (Nat × List β) β where
  entry
    | (n, []), b => match t.entry n b with
      | some (.dir m) => some (.dir (m, []))
      | some .other => some .other
      | none => some (.dir (n, [b]))
    | (n, c :: cs), b => some (.dir (n, b :: c :: cs))
  parent
    | (n, []) => (t.parent n, [])
    | (n, _ :: cs) => (n, cs)

section

variable {t t' t₀ : DirTree β}

theorem move_lt (hn : n < t.count) (hm : t.move n m = some (.dir n')) : n' < t.count := by
  cases m with
  | stay =>
    cases hm
    exact hn
  | up =>
    cases hm
    exact t.parent_lt n hn
  | name b => exact t.dir_lt n b n' hm

theorem find_lt (hn : n < t.count) (hm : t.find n ms = some (.dir d)) : d < t.count := by
  induction ms using List.reverseRecOn generalizing d with
  | nil =>
    cases hm
    exact hn
  | append_singleton ms m ih =>
    obtain ⟨d', hfind, hmove⟩ := Directories.find_concat_some.mp hm
    exact move_lt (ih hfind) hmove

-- ---------------------------------------------------------------------------
-- What is there stays there
-- ---------------------------------------------------------------------------

/-- `t'` has what `t` has. -/
structure Extends (t t' : DirTree β) : Prop where
  count : t.count ≤ t'.count
  entry : ∀ n b e, t.entry n b = some e → t'.entry n b = some e
  parent : ∀ n, n < t.count → t'.parent n = t.parent n

theorem Extends.find (h : t.Extends t') (hn : n < t.count) (hfind : t.find n ms = some e) :
    t'.find n ms = some e := by
  induction ms using List.reverseRecOn generalizing e with
  | nil => exact hfind
  | append_singleton ms m ih =>
    obtain ⟨d, hbefore, hmove⟩ := Directories.find_concat_some.mp hfind
    refine Directories.find_concat_some.mpr ⟨d, ih hbefore, ?_⟩
    cases m with
    | stay => exact hmove
    | up =>
      cases hmove
      exact congrArg (some ∘ Entry.dir) (h.parent d (find_lt hn hbefore))
    | name b => exact h.entry d b e hmove

-- ---------------------------------------------------------------------------
-- The completion
-- ---------------------------------------------------------------------------

/-- `t` was made from `t₀`; the directory `n` of `t` is `at_ n` of the completion of `t₀`. -/
structure Grown (t₀ t : DirTree β) (at_ : Nat → Nat × List β) : Prop where
  ext : t₀.Extends t
  old : ∀ n, n < t₀.count → at_ n = (n, [])
  made : ∀ n, t₀.count ≤ n → n < t.count → (at_ n).2 ≠ []
  entry : ∀ n b e, t.entry n b = some e → t₀.complete.entry (at_ n) b = some (e.map at_)
  parent : ∀ n, n < t.count → at_ (t.parent n) = t₀.complete.parent (at_ n)

theorem Extends.refl (t : DirTree β) : t.Extends t := ⟨Nat.le_refl _, fun _ _ _ h => h, fun _ _ => rfl⟩

theorem Extends.trans (h : t₀.Extends t) (h' : t.Extends t') : t₀.Extends t' where
  count := Nat.le_trans h.count h'.count
  entry n b e he := h'.entry n b e (h.entry n b e he)
  parent n hn := (h'.parent n (Nat.lt_of_lt_of_le hn h.count)).trans (h.parent n hn)

theorem grown_refl (t : DirTree β) : Grown t t fun n => (n, []) where
  ext := .refl t
  old _ _ := rfl
  made n hle hlt := by omega
  entry n b e he := by
    cases e <;> simp [complete, he, Entry.map]
  parent _ _ := rfl

theorem Grown.free (h : Grown t₀ t at_) (hd : d < t.count) (hfree : t.entry d b = none) :
    t₀.complete.entry (at_ d) b = some (.dir ((at_ d).1, b :: (at_ d).2)) := by
  by_cases hold : d < t₀.count
  · have hentry : t₀.entry d b = none := by
      by_contra hne
      obtain ⟨e, he⟩ := Option.ne_none_iff_exists'.mp hne
      exact nomatch hfree.symm.trans (h.ext.entry d b e he)
    simp [h.old d hold, complete, hentry]
  · obtain ⟨c, cs, hcs⟩ := List.exists_cons_of_ne_nil (h.made d (Nat.le_of_not_lt hold) hd)
    generalize at_ d = p at hcs ⊢
    obtain ⟨n, ns⟩ := p
    subst hcs
    rfl

theorem Grown.find (h : Grown t₀ t at_) (hn : n < t.count) (hfind : t.find n ms = some e) :
    t₀.complete.find (at_ n) ms = some (e.map at_) := by
  induction ms using List.reverseRecOn generalizing e with
  | nil =>
    cases hfind
    rfl
  | append_singleton ms m ih =>
    obtain ⟨d, hbefore, hmove⟩ := Directories.find_concat_some.mp hfind
    refine Directories.find_concat_some.mpr ⟨at_ d, ih hbefore, ?_⟩
    cases m with
    | stay =>
      cases hmove
      rfl
    | up =>
      cases hmove
      exact congrArg (some ∘ Entry.dir) (h.parent d (find_lt hn hbefore)).symm
    | name b => exact h.entry d b e hmove

-- ---------------------------------------------------------------------------
-- Making a directory
-- ---------------------------------------------------------------------------

variable [DecidableEq β]

def make (t : DirTree β) (d : Nat) (b : β) (hd : d < t.count) : DirTree β where
  entry n c := if n = d ∧ c = b then some (.dir t.count) else t.entry n c
  parent n := if n = t.count then d else t.parent n
  count := t.count + 1
  entry_lt n c e he := by
    split at he
    · omega
    · exact Nat.lt_succ_of_lt (t.entry_lt n c e he)
  dir_lt n c m he := by
    split at he
    · cases he
      exact Nat.lt_succ_self _
    · exact Nat.lt_succ_of_lt (t.dir_lt n c m he)
  parent_lt n hn := by
    split
    · omega
    · exact Nat.lt_succ_of_lt (t.parent_lt n (by omega))

/-- A directory is made at the path `ms` from `n`: in a directory that is there, under a
name that is free. -/
def mkdir (t : DirTree β) (n : Nat) (ms : List (Move β)) : Option (DirTree β) :=
  match ms.getLast?, t.find n ms.dropLast with
  | some (.name b), some (.dir d) =>
    if h : d < t.count ∧ t.entry d b = none then some (t.make d b h.1) else none
  | _, _ => none

theorem extends_make (hd : d < t.count) (hfree : t.entry d b = none) : t.Extends (t.make d b hd) where
  count := Nat.le_succ _
  entry n c e he := by
    refine (if_neg ?_).trans he
    rintro ⟨rfl, rfl⟩
    exact nomatch hfree.symm.trans he
  parent n hn := if_neg (Nat.ne_of_lt hn)

theorem mkdir_cases (h : t.mkdir n ms = some t') : ∃ ms' b d, ∃ hd : d < t.count, ms = ms' ++ [.name b] ∧
    t.find n ms' = some (.dir d) ∧ t.entry d b = none ∧ t' = t.make d b hd := by
  unfold mkdir at h
  split at h
  · rename_i b d hlast hfind
    split at h
    · rename_i hok
      cases h
      refine ⟨ms.dropLast, b, d, hok.1, ?_, hfind, hok.2, rfl⟩
      obtain ⟨ms', rfl⟩ := List.getLast?_eq_some_iff.mp hlast
      rw [List.dropLast_concat]
    · cases h
  · cases h

theorem extends_mkdir (h : t.mkdir n ms = some t') : t.Extends t' := by
  obtain ⟨_, _, _, hd, -, -, hfree, rfl⟩ := mkdir_cases h
  exact extends_make hd hfree

/-- A path is there after `mkdir`, when its parent was and nothing else is in its place. -/
theorem mkdir_spec (hn : n < t.count) (hparent : t.find n ms = some (.dir d))
    (hfree : t.find n (ms ++ [m]) ≠ some .other) :
    ∃ d', ((t.mkdir n (ms ++ [m])).getD t).find n (ms ++ [m]) = some (.dir d') := by
  have hfind : ∀ t' : DirTree β, t.Extends t' → t'.find n (ms ++ [m]) = t'.move d m := by
    intro t' hext
    rw [Directories.find_concat, hext.find hn hparent]
    rfl
  have hself := hfind t ⟨Nat.le_refl _, fun _ _ _ h => h, fun _ _ => rfl⟩
  cases hmk : t.mkdir n (ms ++ [m]) with
  | some t' =>
    obtain ⟨ms', b, d', hd', heq, hfind', hentry, rfl⟩ := mkdir_cases hmk
    obtain ⟨rfl, hlast⟩ := List.append_inj' heq rfl
    cases hlast
    cases hparent.symm.trans hfind'
    rw [Option.getD_some, hfind _ (extends_make hd' hentry)]
    exact ⟨t.count, if_pos ⟨rfl, rfl⟩⟩
  | none =>
    rw [Option.getD_none, hself]
    rw [hself] at hfree
    cases m with
    | stay => exact ⟨d, rfl⟩
    | up => exact ⟨t.parent d, rfl⟩
    | name b =>
      cases hentry : t.entry d b with
      | none => simp [mkdir, hparent, hentry, find_lt hn hparent] at hmk
      | some e =>
        cases e with
        | dir d' => exact ⟨d', hentry⟩
        | other => exact absurd hentry hfree

theorem Grown.make (h : Grown t₀ t at_) (hd : d < t.count) (hfree : t.entry d b = none) :
    Grown t₀ (t.make d b hd) (Function.update at_ t.count ((at_ d).1, b :: (at_ d).2)) := by
  have hat : ∀ n, n < t.count → Function.update at_ t.count ((at_ d).1, b :: (at_ d).2) n = at_ n :=
    fun n hn => Function.update_of_ne (Nat.ne_of_lt hn) ..
  refine ⟨h.ext.trans (extends_make hd hfree), fun n hn => ?_, fun n hle hlt => ?_, fun n c e he => ?_,
    fun n hn => ?_⟩
  · exact (hat n (Nat.lt_of_lt_of_le hn h.ext.count)).trans (h.old n hn)
  · rcases Nat.lt_succ_iff_lt_or_eq.mp hlt with hlt | rfl
    · rw [hat n hlt]
      exact h.made n hle hlt
    · simp
  · rw [DirTree.make] at he
    dsimp only at he
    split at he
    · rename_i hnew
      obtain ⟨rfl, rfl⟩ := hnew
      cases he
      rw [hat n hd, h.free hd hfree, Entry.map, Function.update_self]
    · rw [hat n (t.entry_lt n c e he), h.entry n c e he]
      cases e with
      | other => rfl
      | dir m => rw [Entry.map, Entry.map, hat m (t.dir_lt n c m he)]
  · rcases Nat.lt_succ_iff_lt_or_eq.mp hn with hlt | rfl
    · rw [(extends_make hd hfree).parent n hlt, hat n hlt, hat _ (t.parent_lt n hlt), h.parent n hlt]
    · rw [show (t.make d b hd).parent t.count = d from if_pos rfl, hat d hd, Function.update_self]
      rfl

theorem Grown.mkdir (h : Grown t₀ t at_) (n : Nat) (ms : List (Move β)) :
    ∃ at_', Grown t₀ ((t.mkdir n ms).getD t) at_' := by
  cases hmk : t.mkdir n ms with
  | none => exact ⟨at_, h⟩
  | some t' =>
    obtain ⟨ms', b, d, hd, -, -, hfree, rfl⟩ := mkdir_cases hmk
    exact ⟨_, h.make hd hfree⟩

end

end DirTree

end Machines
