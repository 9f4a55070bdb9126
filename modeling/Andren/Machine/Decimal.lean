import Mathlib.Algebra.Ring.Nat
import Mathlib.Data.List.Induction
import Mathlib.Data.Nat.Digits.Defs

/-!
# Numbers in decimal

`numeral` writes a number without leading zeros. A list of numbers with a separator between
them is read character by character, and each number is kept below a bound on the way. What
can be read is what is written, character by character (`reads_iff`).
-/

namespace Machines

def digit (d : Nat) : UInt8 := UInt8.ofNat (48 + d)

def numeral (n : Nat) : List UInt8 := (Nat.toDigits 10 n).map fun c => UInt8.ofNat c.toNat

def IsDigit (ch : UInt8) : Prop := 48 ≤ ch.toNat ∧ ch.toNat ≤ 57

instance IsDigit.decidable (ch : UInt8) : Decidable (IsDigit ch) := inferInstanceAs (Decidable (_ ∧ _))

theorem toNat_digit (h : d < 10) : (digit d).toNat = 48 + d := by
  rw [digit, UInt8.toNat_ofNat']
  omega

theorem isDigit_digit (h : d < 10) : IsDigit (digit d) := by
  rw [IsDigit, toNat_digit h]
  omega

theorem IsDigit.eq_digit (h : IsDigit ch) : ch = digit (ch.toNat - 48) := by
  obtain ⟨hlo, hhi⟩ := h
  refine UInt8.toNat_inj.mp ?_
  rw [toNat_digit (by omega)]
  omega

theorem numeral_lt (h : n < 10) : numeral n = [digit n] := by
  rw [numeral, Nat.toDigits_of_lt_base h, List.map_singleton, Nat.toNat_digitChar_of_lt_ten h, digit]

theorem numeral_snoc (hm : 0 < m) (hd : d < 10) : numeral (m * 10 + d) = numeral m ++ [digit d] := by
  rw [← numeral_lt hd, numeral, Nat.mul_comm, ← Nat.toDigits_append_toDigits (by decide) hm hd, List.map_append]
  rfl

theorem isDigit_of_mem_numeral (h : b ∈ numeral n) : IsDigit b := by
  induction n using Nat.strongRecOn with
  | ind n ih =>
    rcases Nat.lt_or_ge n 10 with hn | hn
    · rw [numeral_lt hn, List.mem_singleton] at h
      exact h ▸ isDigit_digit hn
    · have hd : n % 10 < 10 := Nat.mod_lt _ (by decide)
      rw [← Nat.div_add_mod' n 10, numeral_snoc (Nat.div_pos hn (by decide)) hd] at h
      rcases List.mem_append.mp h with h | h
      · exact ih _ (Nat.div_lt_self (by omega) (by decide)) h
      · exact List.mem_singleton.mp h ▸ isDigit_digit hd

-- ---------------------------------------------------------------------------
-- Numbers with a separator between them
-- ---------------------------------------------------------------------------

structure Numbers where
  done : List Nat
  cur : Option Nat

namespace Numbers

variable {sep : UInt8} {count bound : Nat} {s s' : Numbers} {ch : UInt8}

def empty : Numbers := ⟨[], none⟩

/-- No number begins with a 0 and goes on, none gets larger than `bound`, and there are no
more than `count`. -/
def read (sep : UInt8) (count bound : Nat) (s : Numbers) (ch : UInt8) : Option Numbers :=
  if IsDigit ch then
    let new := s.cur.getD 0 * 10 + (ch.toNat - 48)
    if s.cur = some 0 ∨ bound < new then none else some { s with cur := some new }
  else match s.cur with
    | none => none
    | some n => if ch = sep ∧ s.done.length + 1 < count then some ⟨s.done ++ [n], none⟩ else none

def text (sep : UInt8) (s : Numbers) : List UInt8 :=
  s.done.flatMap (numeral · ++ [sep]) ++ s.cur.toList.flatMap numeral

structure Ok (count bound : Nat) (s : Numbers) : Prop where
  done : ∀ n ∈ s.done, n ≤ bound
  cur : ∀ n, s.cur = some n → n ≤ bound
  length : s.done.length < count

theorem text_done (done : List Nat) (n : Nat) (cur : Option Nat) :
    text sep ⟨done ++ [n], cur⟩ = text sep ⟨done, some n⟩ ++ [sep] ++ cur.toList.flatMap numeral := by
  simp [text]

theorem text_first (done : List Nat) (h : d < 10) :
    text sep ⟨done, some d⟩ = text sep ⟨done, none⟩ ++ [digit d] := by
  simp [text, numeral_lt h]

theorem text_digit (done : List Nat) (hm : 0 < m) (hd : d < 10) :
    text sep ⟨done, some (m * 10 + d)⟩ = text sep ⟨done, some m⟩ ++ [digit d] := by
  simp [text, numeral_snoc hm hd]

theorem mem_text (h : b ∈ text sep s) : IsDigit b ∨ b = sep := by
  rcases List.mem_append.mp h with h | h
  · obtain ⟨n, -, h⟩ := List.mem_flatMap.mp h
    rcases List.mem_append.mp h with h | h
    · exact .inl (isDigit_of_mem_numeral h)
    · exact .inr (List.mem_singleton.mp h)
  · obtain ⟨n, -, h⟩ := List.mem_flatMap.mp h
    exact .inl (isDigit_of_mem_numeral h)

theorem read_text (hok : s.Ok count bound) (h : s.read sep count bound ch = some s') :
    s'.Ok count bound ∧ s'.text sep = s.text sep ++ [ch] := by
  obtain ⟨done, cur⟩ := s
  simp only [read] at h
  split at h
  · rename_i hdigit
    obtain ⟨hnot, h⟩ := Option.ite_none_left_eq_some.mp h
    obtain ⟨hzero, hle⟩ := not_or.mp hnot
    cases h
    refine ⟨⟨hok.done, ?_, hok.length⟩, ?_⟩
    · rintro n ⟨⟩
      exact Nat.not_lt.mp hle
    · have hlt : ch.toNat - 48 < 10 := by
        obtain ⟨hlo, hhi⟩ := hdigit
        omega
      conv_rhs => rw [hdigit.eq_digit]
      cases cur with
      | none => simpa using text_first done hlt
      | some m =>
        have hm : 0 < m := Nat.pos_of_ne_zero fun hm => hzero (congrArg some hm)
        exact text_digit done hm hlt
  · cases cur with
    | none => cases h
    | some n =>
      obtain ⟨⟨rfl, hlength⟩, hread⟩ := Option.ite_none_right_eq_some.mp h
      obtain rfl := Option.some.inj hread
      refine ⟨⟨?_, nofun, ?_⟩, ?_⟩
      · intro k hk
        rcases List.mem_append.mp hk with hk | hk
        · exact hok.done k hk
        · exact hok.cur k (congrArg some (List.mem_singleton.mp hk).symm)
      · simpa using hlength
      · simpa using text_done done n none

theorem read_back (hsep : ¬IsDigit sep) (hok : s'.Ok count bound) (h : s'.text sep = t ++ [ch]) :
    ∃ s : Numbers, s.Ok count bound ∧ s.text sep = t ∧ s.read sep count bound ch = some s' := by
  obtain ⟨done, cur⟩ := s'
  cases cur with
  | none =>
    rcases List.eq_nil_or_concat done with rfl | ⟨done, n, rfl⟩
    · simp [text] at h
    · rw [List.concat_eq_append] at h hok
      rw [text_done, Option.toList_none, List.flatMap_nil, List.append_nil] at h
      obtain ⟨rfl, hch⟩ := List.append_inj' h rfl
      obtain rfl := List.head_eq_of_cons_eq hch
      have hlength : done.length + 1 < count := by simpa using hok.length
      have hdone : ∀ k ∈ done, k ≤ bound := fun k hk => hok.done k (List.mem_append_left _ hk)
      refine ⟨⟨done, some n⟩, ⟨hdone, ?_, Nat.lt_of_succ_lt hlength⟩, rfl, ?_⟩
      · rintro k ⟨⟩
        exact hok.done n (by simp)
      · simp [read, hsep, hlength, List.concat_eq_append]
  | some c =>
    have hle := hok.cur c rfl
    rcases Nat.lt_or_ge c 10 with hc | hc
    · rw [text_first done hc] at h
      obtain ⟨rfl, hch⟩ := List.append_inj' h rfl
      obtain rfl := List.head_eq_of_cons_eq hch
      refine ⟨⟨done, none⟩, ⟨hok.done, nofun, hok.length⟩, rfl, ?_⟩
      simp [read, isDigit_digit hc, toNat_digit hc, hle]
    · have hd : c % 10 < 10 := Nat.mod_lt _ (by decide)
      have hm : 0 < c / 10 := Nat.div_pos hc (by decide)
      have hsplit : c / 10 * 10 + c % 10 = c := Nat.div_add_mod' c 10
      rw [← hsplit, text_digit done hm hd] at h
      obtain ⟨rfl, hch⟩ := List.append_inj' h rfl
      obtain rfl := List.head_eq_of_cons_eq hch
      refine ⟨⟨done, some (c / 10)⟩, ⟨hok.done, ?_, hok.length⟩, rfl, ?_⟩
      · rintro k ⟨⟩
        exact (Nat.div_le_self c 10).trans hle
      · have hne : c / 10 ≠ 0 := Nat.ne_of_gt hm
        simp only [read, if_pos (isDigit_digit hd), toNat_digit hd, Nat.add_sub_cancel_left, Option.getD_some,
          Option.some.injEq, hsplit]
        rw [if_neg (not_or.mpr ⟨hne, Nat.not_lt.mpr hle⟩)]

/-- A text is read just when it is what is written of the numbers read. -/
theorem reads_iff (hsep : ¬IsDigit sep) (hcount : 0 < count) (t : List UInt8) :
    t.foldlM (read sep count bound) empty = some s ↔ s.Ok count bound ∧ t = s.text sep := by
  induction t using List.reverseRecOn generalizing s with
  | nil =>
    rw [List.foldlM_nil, Option.pure_def, Option.some.injEq]
    constructor
    · rintro rfl
      exact ⟨⟨nofun, nofun, hcount⟩, rfl⟩
    · rintro ⟨hok, h⟩
      by_contra hne
      obtain ⟨done, cur⟩ := s
      cases cur with
      | none =>
        rcases List.eq_nil_or_concat done with rfl | ⟨done, n, rfl⟩
        · exact hne rfl
        · simp [text] at h
      | some c =>
        have hnil : numeral c = [] := by
          simp only [text, Option.toList_some, List.flatMap_singleton] at h
          exact (List.append_eq_nil_iff.mp h.symm).2
        simp [numeral, Nat.toDigits_ne_nil] at hnil
  | append_singleton t ch ih =>
    rw [List.foldlM_append]
    simp only [Option.bind_eq_bind, Option.bind_eq_some_iff, List.foldlM_cons, List.foldlM_nil, Option.pure_def,
      Option.some.injEq, exists_eq_right, ih]
    constructor
    · rintro ⟨s₀, ⟨hok, rfl⟩, hread⟩
      obtain ⟨hok', htext⟩ := read_text hok hread
      exact ⟨hok', htext.symm⟩
    · rintro ⟨hok, h⟩
      obtain ⟨s₀, hok₀, htext, hread⟩ := read_back hsep hok h.symm
      exact ⟨s₀, ⟨hok₀, htext.symm⟩, hread⟩

end Numbers

end Machines
