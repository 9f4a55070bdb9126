import Andren.Base.Zlib
import Andren.Machine.Loop
import Andren.Machine.Splitting

/-!
# Splitting strings

`splitStringByChar` and `splitStringBySubstring` are one loop, which goes on behind what
it found. Joined with the delimiter the pieces are the string again (`splitString_splits`).
The empty string is found where the search begins, and then the loop goes on from there
for ever (`splitStringBySubstring_returns_iff`).
-/

namespace Andren.Base

open Machines

def findSubstring (str delimiter : Bytes) (pos : Nat) : Option Nat :=
  if str.length < pos then none else ((str.drop pos).dropInfix? delimiter).map (pos + ·.1.length)

def findChar (str : Bytes) (delimiter : UInt8) (pos : Nat) : Option Nat :=
  ((str.drop pos).idxOf? delimiter).map (pos + ·)

def substr (str : Bytes) (pos n : Nat) : Option Bytes :=
  if str.length < pos then none else some ((str.drop pos).take n)

structure SplitLoop where
  start : Nat
  end_ : Option Nat
  result : List Bytes

/-- One pass of the loop of either function, which leaves without a result when `substr` throws. -/
def splitStringPass (find : Nat → Option Nat) (length : Nat) (str : Bytes) (s : SplitLoop) :
    SplitLoop ⊕ Option (List Bytes) :=
  match s.end_ with
  | some end_ => match substr str s.start (end_ - s.start) with
    | some piece => .inl ⟨end_ + length, find (end_ + length), s.result ++ [piece]⟩
    | none => .inr none
  | none => .inr ((substr str s.start str.length).map fun piece => s.result ++ [piece])

def splitString (find : Nat → Option Nat) (length : Nat) (str : Bytes) (fuel : Nat) : Option (Option (List Bytes)) :=
  loop (splitStringPass find length str) fuel ⟨0, find 0, []⟩

def splitStringByChar (str : Bytes) (delimiter : UInt8) : Nat → Option (Option (List Bytes)) :=
  splitString (findChar str delimiter) 1 str

def splitStringBySubstring (str delimiter : Bytes) : Nat → Option (Option (List Bytes)) :=
  splitString (findSubstring str delimiter) delimiter.length str

-- ---------------------------------------------------------------------------
-- One pass
-- ---------------------------------------------------------------------------

theorem findChar_eq (str : Bytes) (c : UInt8) : findChar str c = findSubstring str [c] := by
  funext pos
  rw [findChar, findSubstring, ← dropInfix_singleton, Option.map_map]
  split
  · rename_i hlt
    rw [List.drop_eq_nil_of_le (Nat.le_of_lt hlt)]
    rfl
  · rfl

theorem splitStringByChar_eq (str : Bytes) (c : UInt8) :
    splitStringByChar str c = splitStringBySubstring str [c] := by
  rw [splitStringByChar, splitStringBySubstring, findChar_eq]
  rfl

theorem findSubstring_none (hpos : pos ≤ str.length) (h : findSubstring str d pos = none) :
    (str.drop pos).dropInfix? d = none := by
  rwa [findSubstring, if_neg (Nat.not_lt.mpr hpos), Option.map_eq_none_iff] at h

theorem findSubstring_some (h : findSubstring str d pos = some e) :
    ∃ p r, (str.drop pos).dropInfix? d = some (p, r) ∧ e = pos + p.length ∧ str.drop pos = p ++ d ++ r ∧
      e + d.length ≤ str.length ∧ str.drop (e + d.length) = r := by
  obtain ⟨hpos, h⟩ := Option.ite_none_left_eq_some.mp h
  obtain ⟨⟨p, r⟩, hfound, rfl⟩ := Option.map_eq_some_iff.mp h
  obtain ⟨⟨d', hsplit, heq⟩, -⟩ := List.dropInfix?_eq_some_iff.mp hfound
  obtain rfl := beq_iff_eq.mp heq
  have hlength := congrArg List.length hsplit
  simp only [List.length_drop, List.length_append] at hlength
  refine ⟨p, r, hfound, rfl, hsplit, ?_, ?_⟩
  · dsimp only
    omega
  · rw [Nat.add_assoc, ← List.drop_drop, hsplit, List.append_assoc, ← List.drop_drop]
    simp

structure SplitOk (str d : Bytes) (s : SplitLoop) : Prop where
  start : s.start ≤ str.length
  end_ : s.end_ = findSubstring str d s.start
  result : ∀ ps, Splits d (str.drop s.start) ps → Splits d str (s.result ++ ps)

def subPass (str d : Bytes) : SplitLoop → SplitLoop ⊕ Option (List Bytes) :=
  splitStringPass (findSubstring str d) d.length str

theorem splitPass_ok (hd : d ≠ []) (h : SplitOk str d s) :
    (∃ s', subPass str d s = .inl s' ∧ SplitOk str d s' ∧ str.length - s'.start < str.length - s.start) ∨
      ∃ ps, subPass str d s = .inr (some ps) ∧ Splits d str ps := by
  obtain ⟨start, end_, result⟩ := s
  obtain ⟨hstart, hend, hresult⟩ := h
  obtain rfl : end_ = findSubstring str d start := hend
  dsimp only at hstart hresult
  have hsubstr : ∀ n, substr str start n = some ((str.drop start).take n) := fun n => if_neg (Nat.not_lt.mpr hstart)
  cases hfind : findSubstring str d start with
  | none =>
    have hrest : (str.drop start).take str.length = str.drop start := List.take_of_length_le (by simp)
    refine .inr ⟨result ++ [str.drop start], ?_, hresult _ (splits_single (findSubstring_none hstart hfind))⟩
    simp only [subPass, splitStringPass, hsubstr, hrest, Option.map_some]
  | some e =>
    obtain ⟨p, r, hfound, rfl, hsplit, hlength, hdrop⟩ := findSubstring_some hfind
    have hpiece : (str.drop start).take p.length = p := by rw [hsplit, List.append_assoc, List.take_left]
    refine .inl ⟨⟨start + p.length + d.length, findSubstring str d (start + p.length + d.length), result ++ [p]⟩,
      ?_, ⟨hlength, rfl, fun ps hps => ?_⟩, ?_⟩
    · simp only [subPass, splitStringPass, hsubstr, Nat.add_sub_cancel_left, hpiece]
    · rw [hdrop] at hps
      rw [List.append_assoc]
      exact hresult _ (splits_cons hd hfound hps).2
    · have hpos := List.length_pos_iff.mpr hd
      dsimp only
      omega

-- ---------------------------------------------------------------------------
-- The whole string
-- ---------------------------------------------------------------------------

theorem splitStringBySubstring_splits (hd : d ≠ []) (str : Bytes) :
    ∃ ps, Returns (splitStringBySubstring str d) (some ps) ∧ Splits d str ps := by
  have hinit : SplitOk str d ⟨0, findSubstring str d 0, []⟩ := ⟨Nat.zero_le _, rfl, fun ps hps => hps⟩
  obtain ⟨_, hreturns, ps, rfl, hps⟩ := loop_returns (subPass str d)
    (Q := fun r => ∃ ps, r = some ps ∧ Splits d str ps) Nat.lt_wfRel.wf (fun s => str.length - s.start)
    (fun s hs => (splitPass_ok hd hs).imp_right fun ⟨ps, hleave, hps⟩ => ⟨_, hleave, ps, rfl, hps⟩) hinit
  exact ⟨ps, hreturns, hps⟩

/-- Either function returns pieces that give the string back when they are joined, none of
which has the delimiter inside, one more of them than the delimiter occurs. -/
theorem splitString_splits (str : Bytes) :
    (∀ c, ∃ ps, Returns (splitStringByChar str c) (some ps) ∧ Splits [c] str ps) ∧
      ∀ d, d ≠ [] → ∃ ps, Returns (splitStringBySubstring str d) (some ps) ∧ Splits d str ps := by
  refine ⟨fun c => ?_, fun d hd => splitStringBySubstring_splits hd str⟩
  rw [splitStringByChar_eq]
  exact splitStringBySubstring_splits (List.cons_ne_nil c []) str

theorem splitString_splits_overlapping : occurrences [0x61, 0x61] [0x61, 0x61, 0x61] = 1 ∧
    ∃ ps, Returns (splitStringBySubstring [0x61, 0x61, 0x61] [0x61, 0x61]) (some ps) ∧
      Splits [0x61, 0x61] [0x61, 0x61, 0x61] ps :=
  ⟨by decide, (splitString_splits [0x61, 0x61, 0x61]).2 [0x61, 0x61] (by decide)⟩

/-- The empty string is found again where the search begins. -/
theorem splitString_diverges (str : Bytes) (r : Option (List Bytes)) :
    ¬Returns (splitStringBySubstring str []) r := by
  refine loop_diverges (subPass str []) (I := fun s => s.end_ = some s.start ∧ s.start ≤ str.length) ?_
    (s := ⟨0, findSubstring str [] 0, []⟩) ⟨by simp [findSubstring], Nat.zero_le _⟩ r
  rintro ⟨start, end_, result⟩ ⟨hend, hstart⟩
  obtain rfl : end_ = some start := hend
  dsimp only at hstart
  have hsubstr : ∀ n, substr str start n = some ((str.drop start).take n) := fun n => if_neg (Nat.not_lt.mpr hstart)
  refine ⟨⟨start, some start, result ++ [[]]⟩, ?_, rfl, hstart⟩
  simp [subPass, splitStringPass, hsubstr, findSubstring, Nat.not_lt.mpr hstart]

/-- The loop comes to an end just for a delimiter that is not empty. -/
theorem splitStringBySubstring_returns_iff (str d : Bytes) :
    (∃ ps, Returns (splitStringBySubstring str d) (some ps) ∧ ps.length ≤ str.length + 1) ↔ d ≠ [] := by
  constructor
  · rintro ⟨ps, hreturns, -⟩ rfl
    exact splitString_diverges str _ hreturns
  · intro hd
    obtain ⟨ps, hreturns, hps⟩ := splitStringBySubstring_splits hd str
    refine ⟨ps, hreturns, ?_⟩
    rw [hps.length]
    exact Nat.succ_le_succ (occurrences_le d str)

theorem splitStringBySubstring_never_returns : ¬∀ str d : Bytes,
    ∃ ps, Returns (splitStringBySubstring str d) (some ps) ∧ ps.length ≤ str.length + 1 := by
  intro h
  obtain ⟨ps, hreturns, -⟩ := h [0x61] []
  exact splitString_diverges [0x61] _ hreturns

end Andren.Base
