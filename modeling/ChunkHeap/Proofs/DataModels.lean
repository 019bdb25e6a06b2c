import Mathlib
import ChunkHeap.DataModel
import ChunkHeap.Proofs.Numerals

/-!
# Data models by bits and by bytes

A printed number of bits, between blanks or not, is the data model of that many bits or is
refused by its number. So the text of `8 * b` does what the width of `b` bytes does. Any other
numeral of a supported number is refused too, and then that number is given for the reason.
-/

set_option autoImplicit false

namespace ChunkHeap.DataModel

variable {before after : String}

theorem parse_toString (hb : ∀ c ∈ before.toList, Blank.isBlank c)
    (ha : ∀ c ∈ after.toList, Blank.isBlank c) {n : ℕ} (hn : n < wordLimit) :
    parse (before ++ toString n ++ after) =
      if n = 32 then .ok .bits32 else if n = 64 then .ok .bits64
      else .error (.unsupportedDataModel n) := by
  have hread : Decimal.read? (Nat.toDigits 10 n) = some n := Decimal.read?_toDigits hn
  rw [parse, Decimal.trim_toString hb ha]
  split
  · next h =>
    rw [h] at hread
    obtain rfl : 32 = n := Option.some.inj hread
    rfl
  · next h =>
    rw [h] at hread
    obtain rfl : 64 = n := Option.some.inj hread
    rfl
  · next h32 h64 =>
    have hne32 : n ≠ 32 := by
      rintro rfl
      exact h32 rfl
    have hne64 : n ≠ 64 := by
      rintro rfl
      exact h64 rfl
    rw [hread, if_neg hne32, if_neg hne64, Option.getD_some]

theorem ofPointerWidth_eq {b : ℕ} (hw : 8 * b < wordLimit) : ofPointerWidth b =
    if 8 * b = 32 then .ok .bits32 else if 8 * b = 64 then .ok .bits64
    else .error (.unsupportedDataModel (8 * b)) := by
  unfold ofPointerWidth
  split
  · rfl
  · rfl
  · next h4 h8 =>
    have hne4 : b ≠ 4 := h4
    have hne8 : b ≠ 8 := h8
    have hbits : min (b * 8) (wordLimit - 1) = 8 * b := by omega
    rw [if_neg (by omega), if_neg (by omega), hbits]

/-- Bits in a text and bytes in a number choose the same model or are refused alike. -/
theorem bits_agree_with_bytes {b : ℕ} (hw : 8 * b < wordLimit)
    (hb : ∀ c ∈ before.toList, Blank.isBlank c) (ha : ∀ c ∈ after.toList, Blank.isBlank c) :
    parse (before ++ toString (8 * b) ++ after) = ofPointerWidth b := by
  rw [parse_toString hb ha hw, ofPointerWidth_eq hw]

theorem bits_agree_with_bytes_widest :
    8 * 2305843009213693951 < wordLimit ∧
    (∀ c ∈ "\t\u2003".toList, Blank.isBlank c) ∧ (∀ c ∈ "\u0085".toList, Blank.isBlank c) ∧
    parse ("\t\u2003" ++ toString (8 * 2305843009213693951) ++ "\u0085") =
      ofPointerWidth 2305843009213693951 := by
  have hw : 8 * 2305843009213693951 < wordLimit := by decide
  have hb : ∀ c ∈ "\t\u2003".toList, Blank.isBlank c := by simp [Blank.isBlank, Blank.ranges]
  have ha : ∀ c ∈ "\u0085".toList, Blank.isBlank c := by simp [Blank.isBlank, Blank.ranges]
  exact ⟨hw, hb, ha, bits_agree_with_bytes hw hb ha⟩

theorem parse_refused_iff {text : String} {bits : ℕ} (hpos : 0 < bits) :
    parse text = .error (.unsupportedDataModel bits) ↔
      Decimal.read? (Blank.trim text.toList) = some bits ∧
        Blank.trim text.toList ≠ ['3', '2'] ∧ Blank.trim text.toList ≠ ['6', '4'] := by
  unfold parse
  split
  · next h => simp [h]
  · next h => simp [h]
  · next h32 h64 =>
    rw [Except.error.injEq, Refusal.unsupportedDataModel.injEq]
    cases Decimal.read? (Blank.trim text.toList) with
    | none =>
      simp only [Option.getD_none, reduceCtorEq, false_and, iff_false]
      exact hpos.ne
    | some n => simpa using fun _ => ⟨h32, h64⟩

/-- A supported number is named for its redundant numerals and for no other text. -/
theorem parse_names_iff {text : String} {bits : ℕ} (hbits : bits = 32 ∨ bits = 64) :
    parse text = .error (.unsupportedDataModel bits) ↔
      Decimal.Redundant (Blank.trim text.toList) bits := by
  have hword : bits < wordLimit := by
    unfold wordLimit
    omega
  rw [parse_refused_iff (by omega), Decimal.redundant_iff, Decimal.read?_eq_some_iff,
    and_iff_left hword]
  refine and_congr_right fun hnumeral => ?_
  have hread := Decimal.read?_eq_some_iff.mpr ⟨hnumeral, hword⟩
  -- the printed form of the other supported number is no numeral of this one
  rcases hbits with rfl | rfl
  · refine and_iff_left fun h => ?_
    rw [h] at hread
    exact absurd hread (by decide)
  · refine and_iff_right fun h => ?_
    rw [h] at hread
    exact absurd hread (by decide)

/-- A width that is refused is not one of the supported. -/
def Unsupported (choice : Except Refusal DataModel) : Prop :=
  ∀ bits, choice = .error (.unsupportedDataModel bits) → bits ≠ 32 ∧ bits ≠ 64

/-- A text that is a numeral of a supported width, but not in its printed form. -/
def Respelt (text : String) : Prop :=
  ∃ bits, (bits = 32 ∨ bits = 64) ∧ Decimal.Redundant (Blank.trim text.toList) bits

theorem unsupported_ofPointerWidth (bytes : ℕ) : Unsupported (ofPointerWidth bytes) := by
  intro bits h
  unfold ofPointerWidth at h
  split at h
  · cases h
  · cases h
  · next h4 h8 =>
    have hne4 : bytes ≠ 4 := h4
    have hne8 : bytes ≠ 8 := h8
    have hbits : min (bytes * 8) (wordLimit - 1) = bits := by
      rwa [Except.error.injEq, Refusal.unsupportedDataModel.injEq] at h
    unfold wordLimit at hbits
    omega

theorem unsupported_parse_iff {text : String} : Unsupported (parse text) ↔ ¬ Respelt text := by
  constructor
  · rintro hnames ⟨bits, hbits, hr⟩
    have hne := hnames bits ((parse_names_iff hbits).mpr hr)
    omega
  · intro hplain bits h
    by_contra hbits
    have hsupported : bits = 32 ∨ bits = 64 := by omega
    exact hplain ⟨bits, hsupported, (parse_names_iff hsupported).mp h⟩

/-- What is refused for its width is not supported, unless a text respells a supported width. -/
theorem refusals_name_unsupported (bytes : ℕ) (text : String) :
    Unsupported (ofPointerWidth bytes) ∧ (Unsupported (parse text) ↔ ¬ Respelt text) :=
  ⟨unsupported_ofPointerWidth bytes, unsupported_parse_iff⟩

/-- With a plus sign a supported width is refused in its own name. -/
theorem signed_width_refused :
    parse "+64" = .error (.unsupportedDataModel 64) ∧ ¬ Unsupported (parse "+64") := by
  have hparse : parse "+64" = .error (.unsupportedDataModel 64) := by rfl
  exact ⟨hparse, fun h => (h 64 hparse).2 rfl⟩

end ChunkHeap.DataModel
