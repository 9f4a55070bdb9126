import Andren.Base.MySQLResult

/-!
# Times as text

`convertTimeToString` prints a number of seconds, `convertStringToTime` reads hours,
minutes and seconds between colons. What is printed has no colon, so only hours are read
back, at most 23 of them.
-/

namespace Andren.Base

open Machines

def COLON : UInt8 := 58

def to_string (n : Int) : Bytes := (if n < 0 then [45] else []) ++ numeral n.natAbs

def convertTimeToString (duration : Int) : Bytes := to_string duration

/-- What `get_time` does for `%H:%M:%S` with a zeroed `tm`: the hour that it sets is one or
two digits at the beginning of a text without leading blanks and at most 23, and it comes to
minutes and seconds only behind a colon. -/
structure ReadsTimes (get_time : Bytes → Tm) : Prop where
  hour : ∀ text, (∀ b ∈ text.head?, isSpace b = false) → (get_time text).tm_hour = 0 ∨ ∃ digits, digits <+: text ∧ (digits.length = 1 ∨ digits.length = 2) ∧
    digitsValue digits ≤ 23 ∧ (get_time text).tm_hour = digitsValue digits
  colon : ∀ text, COLON ∉ text → (get_time text).tm_min = 0 ∧ (get_time text).tm_sec = 0

theorem isDigit_to_string (h : 0 ≤ n) (hb : b ∈ to_string n) : IsDigit b := by
  rw [to_string, if_neg (Int.not_lt.mpr h), List.nil_append] at hb
  exact isDigit_of_mem_numeral hb

/-- The number of seconds in whole hours does not begin with the number of the hours. -/
theorem hours_not_first : ∀ h : Fin 24, h ≠ 0 →
    digitsValue ((to_string (3600 * h.1)).take 1) ≠ h ∧ digitsValue ((to_string (3600 * h.1)).take 2) ≠ h := by
  decide

theorem convertTime_round_trip (lib : Parsers) (hlib : ReadsTimes (lib.get_time "%H:%M:%S")) (h0 : 0 ≤ d)
    (hd : d < 24 * 3600) : convertStringToTime lib (convertTimeToString d) = d ↔ d = 0 := by
  have hcolon : COLON ∉ convertTimeToString d := fun h => absurd (isDigit_to_string h0 h) (by decide)
  have hblank : ∀ b ∈ (convertTimeToString d).head?, isSpace b = false := fun b hb =>
    isSpace_of_isDigit (isDigit_to_string h0 (List.mem_of_mem_head? hb))
  obtain ⟨hmin, hsec⟩ := hlib.colon _ hcolon
  have hvalue : convertStringToTime lib (convertTimeToString d) =
      (lib.get_time "%H:%M:%S" (convertTimeToString d)).tm_hour * 3600 := by
    simp only [convertStringToTime, hmin, hsec, Int.zero_mul, Int.add_zero]
  rw [hvalue]
  rcases hlib.hour (convertTimeToString d) hblank with hzero | ⟨digits, hprefix, hlength, hle, hhour⟩
  · rw [hzero]
    omega
  · have htake := List.prefix_iff_eq_take.mp hprefix
    rw [hhour]
    constructor
    · intro heq
      by_contra hne
      obtain ⟨htake₁, htake₂⟩ := hours_not_first ⟨digitsValue digits, by omega⟩ (by
        simp only [ne_eq, Fin.ext_iff]
        show ¬digitsValue digits = 0
        omega)
      rw [convertTimeToString, ← heq, Int.mul_comm] at htake
      rcases hlength with hone | htwo
      · rw [hone] at htake
        exact htake₁ (congrArg digitsValue htake.symm)
      · rw [htwo] at htake
        exact htake₂ (congrArg digitsValue htake.symm)
    · rintro rfl
      have hdigits : digits = [48] := by
        rcases hlength with hlength | hlength <;> rw [hlength] at htake <;> exact htake
      rw [hdigits]
      rfl

-- ---------------------------------------------------------------------------
-- A parser of times
-- ---------------------------------------------------------------------------

def timeField (upTo : Nat) : Bytes → Option (Nat × Bytes)
  | a :: b :: rest =>
    if IsDigit a ∧ IsDigit b ∧ digitsValue [a, b] ≤ upTo then some (digitsValue [a, b], rest) else none
  | _ => none

def nextField (upTo : Nat) : Bytes → Option (Nat × Bytes)
  | c :: text => if c = COLON then timeField upTo text else none
  | [] => none

def getTime (text : Bytes) : Tm :=
  match timeField 23 text with
  | none => ⟨0, 0, 0, 0, 0, 0⟩
  | some (hour, text) => match nextField 59 text with
    | none => ⟨0, 0, hour, 0, 0, 0⟩
    | some (min, text) => match nextField 60 text with
      | none => ⟨0, min, hour, 0, 0, 0⟩
      | some (sec, _) => ⟨sec, min, hour, 0, 0, 0⟩

def parsers : Parsers := ⟨fun _ => none, fun _ => getTime, fun _ => 0⟩

example : convertStringToTime parsers [49, 48, 58, 50, 53, 58, 51, 48] = 10 * 3600 + 25 * 60 + 30 := by decide

theorem timeField_spec (h : timeField upTo text = some (n, rest)) :
    ∃ digits, text = digits ++ rest ∧ digits.length = 2 ∧ n ≤ upTo ∧ n = digitsValue digits := by
  unfold timeField at h
  split at h
  · obtain ⟨⟨-, -, hle⟩, h⟩ := Option.ite_none_right_eq_some.mp h
    cases h
    exact ⟨_, rfl, rfl, hle, rfl⟩
  · cases h

theorem nextField_none (h : COLON ∉ text) (upTo : Nat) : nextField upTo text = none := by
  cases text with
  | nil => rfl
  | cons c text =>
    refine if_neg ?_
    rintro rfl
    exact h (.head _)

theorem readsTimes_getTime : ReadsTimes getTime where
  hour text _ := by
    unfold getTime
    split
    · exact .inl rfl
    · rename_i hour rest hfield
      obtain ⟨digits, rfl, hlength, hle, rfl⟩ := timeField_spec hfield
      refine .inr ⟨digits, List.prefix_append .., .inr hlength, hle, ?_⟩
      split
      · rfl
      · split <;> rfl
  colon text hcolon := by
    unfold getTime
    split
    · exact ⟨rfl, rfl⟩
    · rename_i hour rest hfield
      obtain ⟨digits, rfl, -, -, -⟩ := timeField_spec hfield
      rw [nextField_none fun h => hcolon (List.mem_append_right _ h)]
      exact ⟨rfl, rfl⟩

theorem convertTime_round_trip_hour :
    convertStringToTime parsers (convertTimeToString 3600) = 3600 ↔ (3600 : Int) = 0 :=
  convertTime_round_trip parsers readsTimes_getTime (by decide) (by decide)

/-- An hour is printed as `3600`, where no hour can be read. -/
theorem convertTime_loses : ¬∀ d : Int, 0 ≤ d → d < 24 * 3600 →
    convertStringToTime parsers (convertTimeToString d) = d := by
  intro h
  exact absurd (h 3600 (by decide) (by decide)) (by decide)

end Andren.Base
