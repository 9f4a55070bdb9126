import Mathlib.Data.List.Basic

/-!
# Lexical paths

A path is a string of components between separators. Read from a working directory it
names a directory by its names alone (`resolve`): empty components and `.` stay, `..` steps
out and any other component steps in. A path whose components never step out of where it
starts keeps each of its stages below that directory, and only such a path does
(`stages_under_iff`).
-/

namespace Machines

variable {α : Type u} {slash dot : α} {c p q : List α} {d t us : List (List α)}

-- ---------------------------------------------------------------------------
-- Stages of a path
-- ---------------------------------------------------------------------------

/-- `p` goes on after `q` with a separator. -/
def Parent (slash : α) (q p : List α) : Prop := q ++ [slash] <+: p

/-- `q` is `p`, or where `p` stands before one of its separators. -/
def Stage (slash : α) (q p : List α) : Prop := q = p ∨ Parent slash q p

theorem not_parent (h : slash ∉ p) : ¬Parent slash q p :=
  fun hparent => h (hparent.subset (List.mem_append_right _ (.head _)))

theorem parent_append_cons : Parent slash q (c ++ slash :: p) ↔
    Parent slash q c ∨ q = c ∨ ∃ q', q = c ++ slash :: q' ∧ Parent slash q' p := by
  constructor
  · rintro ⟨r, hr⟩
    rw [List.append_assoc, List.singleton_append, List.append_eq_append_iff] at hr
    rcases hr with ⟨a, rfl, ha⟩ | ⟨a, rfl, ha⟩
    · rcases List.cons_eq_append_iff.mp ha with ⟨rfl, -⟩ | ⟨a', rfl, -⟩
      · exact .inr (.inl (List.append_nil q).symm)
      · exact .inl ⟨a', by simp⟩
    · rcases List.cons_eq_append_iff.mp ha with ⟨rfl, -⟩ | ⟨a', rfl, rfl⟩
      · exact .inr (.inl (List.append_nil c))
      · exact .inr (.inr ⟨a', rfl, r, by simp⟩)
  · rintro (⟨r, rfl⟩ | rfl | ⟨q', rfl, r, rfl⟩)
    · exact ⟨r ++ slash :: p, by simp⟩
    · exact ⟨p, by simp⟩
    · exact ⟨r, by simp⟩

theorem stage_of_not_mem (h : slash ∉ c) : Stage slash q c ↔ q = c := or_iff_left (not_parent h)

theorem stage_append_cons (h : slash ∉ c) : Stage slash q (c ++ slash :: p) ↔
    q = c ∨ ∃ q', q = c ++ slash :: q' ∧ Stage slash q' p := by
  rw [Stage, parent_append_cons, or_iff_right (not_parent h)]
  constructor
  · rintro (rfl | rfl | ⟨q', rfl, hq⟩)
    · exact .inr ⟨p, rfl, .inl rfl⟩
    · exact .inl rfl
    · exact .inr ⟨q', rfl, .inr hq⟩
  · rintro (rfl | ⟨q', rfl, rfl | hq⟩)
    · exact .inr (.inl rfl)
    · exact .inl rfl
    · exact .inr (.inr ⟨q', rfl, hq⟩)

theorem not_under_tail (ht : t ≠ []) : ¬t <:+ t.tail := by
  intro h
  have hle := h.length_le
  rw [List.length_tail] at hle
  have hpos := List.length_pos_iff.mpr ht
  omega

section

variable [DecidableEq α]

/-- A path is its last component or a component, a separator and a path. -/
theorem path_induction {P : List α → Prop} (slash : α) (hlast : ∀ c, slash ∉ c → P c)
    (hcons : ∀ c p, slash ∉ c → P p → P (c ++ slash :: p)) (p : List α) : P p := by
  have hgen : ∀ p c, slash ∉ c → P (c ++ p) := by
    intro p
    induction p with
    | nil =>
      intro c hc
      rw [List.append_nil]
      exact hlast c hc
    | cons a p ih =>
      intro c hc
      by_cases ha : a = slash
      · subst ha
        exact hcons c p hc (ih [] List.not_mem_nil)
      · rw [List.append_cons]
        refine ih (c ++ [a]) ?_
        simp [hc, Ne.symm ha]
  exact hgen p [] List.not_mem_nil

-- ---------------------------------------------------------------------------
-- Walking
-- ---------------------------------------------------------------------------

/-- The directory, its names innermost first, that `c` leads to from `d`. The root is its
own parent. -/
def enter (dot : α) (d : List (List α)) (c : List α) : List (List α) :=
  if c = [] ∨ c = [dot] then d else if c = [dot, dot] then d.tail else c :: d

def walkPath (slash dot : α) (d : List (List α)) (p : List α) : List (List α) :=
  (p.splitOn slash).foldl (enter dot) d

/-- The directory that a path names when it is read in the directory `cwd`. -/
def resolve (slash dot : α) (cwd : List (List α)) (p : List α) : List (List α) :=
  walkPath slash dot (if p.head? = some slash then [] else cwd) p

@[simp] theorem walkPath_nil : walkPath slash dot d [] = d := by
  simp [walkPath, List.splitOn_nil, enter]

theorem walkPath_append_cons (p q : List α) :
    walkPath slash dot d (p ++ slash :: q) = walkPath slash dot (walkPath slash dot d p) q := by
  rw [walkPath, List.splitOn_append_cons_self, List.foldl_append]
  rfl

theorem walkPath_of_not_mem (dot : α) (d : List (List α)) (h : slash ∉ c) :
    walkPath slash dot d c = enter dot d c := by
  rw [walkPath, List.splitOn_eq_singleton h]
  rfl

@[simp] theorem resolve_nil : resolve slash dot d [] = d := by simp [resolve]

theorem resolve_append_cons (p q : List α) :
    resolve slash dot d (p ++ slash :: q) = walkPath slash dot (resolve slash dot d (p ++ [slash])) q := by
  have hhead : (p ++ slash :: q).head? = (p ++ [slash]).head? := by cases p <;> rfl
  rw [resolve, resolve, hhead, walkPath_append_cons, walkPath_append_cons, walkPath_nil]

theorem resolve_snoc (hne : p ≠ []) : resolve slash dot d (p ++ [slash]) = resolve slash dot d p := by
  rw [resolve, resolve, walkPath_append_cons, walkPath_nil, List.head?_append_of_ne_nil _ hne]

-- ---------------------------------------------------------------------------
-- Paths that step in
-- ---------------------------------------------------------------------------

/-- From `n` names below the start, no component steps out of the start. -/
def descends (dot : α) : Nat → List (List α) → Bool
  | _, [] => true
  | n, c :: cs =>
    if c = [] ∨ c = [dot] then descends dot n cs
    else if c = [dot, dot] then decide (0 < n) && descends dot (n - 1) cs
    else descends dot (n + 1) cs

/-- A component either leads out of `t`, and the path does not descend, or to a
directory below it, and the path descends when the rest does. -/
theorem enter_cases (dot : α) (us : List (List α)) (ht : t ≠ []) (c : List α) :
    (¬t <:+ enter dot (us ++ t) c ∧ ∀ cs, descends dot us.length (c :: cs) = false) ∨
    ∃ us', enter dot (us ++ t) c = us' ++ t ∧
      ∀ cs, descends dot us.length (c :: cs) = descends dot us'.length cs := by
  by_cases hstay : c = [] ∨ c = [dot]
  · exact .inr ⟨us, if_pos hstay, fun cs => by rw [descends, if_pos hstay]⟩
  · by_cases hup : c = [dot, dot]
    · cases us with
      | nil =>
        refine .inl ⟨?_, fun cs => ?_⟩
        · rw [enter, if_neg hstay, if_pos hup]
          exact not_under_tail ht
        · rw [List.length_nil, descends, if_neg hstay, if_pos hup]
          rfl
      | cons u us =>
        refine .inr ⟨us, ?_, fun cs => ?_⟩
        · rw [enter, if_neg hstay, if_pos hup]
          rfl
        · rw [List.length_cons, descends, if_neg hstay, if_pos hup]
          rfl
    · refine .inr ⟨c :: us, ?_, fun cs => ?_⟩
      · rw [enter, if_neg hstay, if_neg hup]
        rfl
      · rw [descends, if_neg hstay, if_neg hup, List.length_cons]

theorem stages_under_iff (ht : t ≠ []) (us : List (List α)) (p : List α) :
    (∀ q, Stage slash q p → t <:+ walkPath slash dot (us ++ t) q) ↔
      descends dot us.length (p.splitOn slash) = true := by
  induction p using path_induction slash generalizing us with
  | hlast c hc =>
    have hstages : (∀ q, Stage slash q c → t <:+ walkPath slash dot (us ++ t) q) ↔
        t <:+ enter dot (us ++ t) c := by
      simp only [stage_of_not_mem hc, forall_eq, walkPath_of_not_mem dot _ hc]
    rw [hstages, List.splitOn_eq_singleton hc]
    rcases enter_cases dot us ht c with ⟨hout, hdesc⟩ | ⟨us', hin, hdesc⟩
    · rw [hdesc]
      exact iff_of_false hout Bool.false_ne_true
    · rw [hdesc, hin]
      exact iff_of_true (List.suffix_append _ _) rfl
  | hcons c p hc ih =>
    have hstages : (∀ q, Stage slash q (c ++ slash :: p) → t <:+ walkPath slash dot (us ++ t) q) ↔
        t <:+ enter dot (us ++ t) c ∧
          ∀ q, Stage slash q p → t <:+ walkPath slash dot (enter dot (us ++ t) c) q := by
      constructor
      · intro h
        refine ⟨?_, fun q hq => ?_⟩
        · rw [← walkPath_of_not_mem dot _ hc]
          exact h c ((stage_append_cons hc).mpr (.inl rfl))
        · rw [← walkPath_of_not_mem dot _ hc, ← walkPath_append_cons]
          exact h _ ((stage_append_cons hc).mpr (.inr ⟨q, rfl, hq⟩))
      · rintro ⟨hfirst, hrest⟩ q hq
        rcases (stage_append_cons hc).mp hq with rfl | ⟨q', rfl, hq'⟩
        · rwa [walkPath_of_not_mem dot _ hc]
        · rw [walkPath_append_cons, walkPath_of_not_mem dot _ hc]
          exact hrest q' hq'
    rw [hstages, List.splitOn_append_cons_self_of_not_mem hc]
    rcases enter_cases dot us ht c with ⟨hout, hdesc⟩ | ⟨us', hin, hdesc⟩
    · rw [hdesc]
      exact iff_of_false (fun h => hout h.1) Bool.false_ne_true
    · rw [hdesc, hin, ih us']
      exact and_iff_right (List.suffix_append _ _)

end

end Machines
