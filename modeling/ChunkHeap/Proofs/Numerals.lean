import Mathlib
import ChunkHeap.Text.Blank
import ChunkHeap.Text.Decimal

/-!
# Numerals between blanks

Stripping a text leaves the one part of it that has blanks around it and at neither end.
Reading accepts the numerals of the machine words and nothing else, and what a number is
printed as is read as that number, whatever blanks are put around it. The other numerals of
the number are the printed one behind zeros, a plus sign or both.
-/

set_option autoImplicit false

namespace ChunkHeap

namespace Blank

/-- A text that neither starts nor ends with a blank, and blanks before and after it. -/
structure Surrounds (before core after : List Char) : Prop where
  before : ∀ c ∈ before, isBlank c
  after : ∀ c ∈ after, isBlank c
  first : ∀ c ∈ core.head?, ¬ isBlank c
  last : ∀ c ∈ core.getLast?, ¬ isBlank c

theorem dropWhile_core {before core : List Char} (hb : ∀ c ∈ before, isBlank c)
    (hc : ∀ c ∈ core.head?, ¬ isBlank c) : (before ++ core).dropWhile isBlank = core := by
  rw [List.dropWhile_append_of_pos hb]
  cases core with
  | nil => rfl
  | cons c cs => exact List.dropWhile_cons_of_neg (hc c rfl)

theorem trimEnd_core {core after : List Char} (ha : ∀ c ∈ after, isBlank c)
    (hc : ∀ c ∈ core.getLast?, ¬ isBlank c) : trimEnd (core ++ after) = core := by
  rw [trimEnd, List.reverse_append, dropWhile_core (by simpa using ha) (by simpa using hc),
    List.reverse_reverse]

theorem trim_surrounded {before core after : List Char} (h : Surrounds before core after) :
    trim (before ++ core ++ after) = core := by
  cases core with
  | nil =>
    -- nothing but blanks: all of them go at the front and none is left for the end
    have hall : ∀ c ∈ before ++ after, isBlank c := by
      intro c hc
      exact (List.mem_append.mp hc).elim (h.before c) (h.after c)
    rw [List.append_nil, trim, List.dropWhile_eq_nil_iff.mpr hall]
    rfl
  | cons c cs =>
    have hfirst : ∀ d ∈ (c :: cs ++ after).head?, ¬ isBlank d := h.first
    rw [List.append_assoc, trim, dropWhile_core h.before hfirst]
    exact trimEnd_core h.after h.last

theorem not_blank_of_head {cs : List Char} {c : Char} (h : c ∈ (cs.dropWhile isBlank).head?) :
    ¬ isBlank c := by
  have hnot := List.head?_dropWhile_not isBlank cs
  rw [Option.mem_def.mp h] at hnot
  simpa using hnot

theorem exists_surrounds (cs : List Char) :
    ∃ before after, cs = before ++ trim cs ++ after ∧ Surrounds before (trim cs) after := by
  have hfront : cs = cs.takeWhile isBlank ++ cs.dropWhile isBlank :=
    List.takeWhile_append_dropWhile.symm
  have hback : cs.dropWhile isBlank = trim cs ++ (cs.dropWhile isBlank).rtakeWhile isBlank :=
    List.rdropWhile_append_rtakeWhile.symm
  refine ⟨cs.takeWhile isBlank, (cs.dropWhile isBlank).rtakeWhile isBlank, ?_, ?_⟩
  · rw [List.append_assoc, ← hback, ← hfront]
  · refine ⟨fun c hc => List.mem_takeWhile_imp hc, fun c hc => List.mem_rtakeWhile_imp hc, ?_, ?_⟩
    · intro c hc
      apply not_blank_of_head
      rw [hback, List.head?_append, Option.mem_def.mp hc]
      rfl
    · intro c hc
      rw [trim, trimEnd, List.getLast?_reverse] at hc
      exact not_blank_of_head hc

theorem trim_eq_iff {cs core : List Char} :
    trim cs = core ↔
      ∃ before after, cs = before ++ core ++ after ∧ Surrounds before core after := by
  constructor
  · rintro rfl
    exact exists_surrounds cs
  · rintro ⟨before, after, rfl, h⟩
    exact trim_surrounded h

end Blank

namespace Decimal

/-- The digits of the number in order, the highest first, leading zeros or not. -/
structure Denotes (ds : List Char) (n : ℕ) : Prop where
  nonempty : ds ≠ []
  digits : ∀ c ∈ ds, isDigit c
  number : Nat.ofDigits 10 (ds.reverse.map digit) = n

/-- The digits of the number, with or without a plus sign. -/
def Numeral (cs : List Char) (n : ℕ) : Prop := ∃ ds, (cs = ds ∨ cs = '+' :: ds) ∧ Denotes ds n

theorem value_concat (ds : List Char) (c : Char) :
    value (ds ++ [c]) = 10 * value ds + digit c := by
  simp [value]

theorem value_eq (ds : List Char) : value ds = Nat.ofDigits 10 (ds.reverse.map digit) := by
  induction ds using List.reverseRecOn with
  | nil => rfl
  | append_singleton ds c ih =>
    rw [value_concat, ih, List.reverse_concat, List.map_cons, Nat.ofDigits_cons]
    omega

theorem unsigned?_eq_some_iff {ds : List Char} {n : ℕ} :
    unsigned? ds = some n ↔ Denotes ds n ∧ n < wordLimit := by
  rw [unsigned?]
  constructor
  · intro h
    split_ifs at h with hds
    obtain rfl := Option.some.inj h
    exact ⟨⟨hds.1, List.all_eq_true.mp hds.2.1, (value_eq ds).symm⟩, hds.2.2⟩
  · rintro ⟨hd, hn⟩
    have hvalue : value ds = n := (value_eq ds).trans hd.number
    rw [if_pos ⟨hd.nonempty, List.all_eq_true.mpr hd.digits, hvalue ▸ hn⟩, hvalue]

theorem Denotes.read? {ds : List Char} {n : ℕ} (h : Denotes ds n) : read? ds = unsigned? ds := by
  unfold Decimal.read?
  split
  · have hplus : isDigit '+' := h.digits '+' List.mem_cons_self
    exact absurd hplus (by decide)
  · rfl

/-- Exactly the numerals of machine words are read. -/
theorem read?_eq_some_iff {cs : List Char} {n : ℕ} :
    read? cs = some n ↔ Numeral cs n ∧ n < wordLimit := by
  constructor
  · intro h
    unfold read? at h
    split at h
    · next ds =>
      obtain ⟨hd, hn⟩ := unsigned?_eq_some_iff.mp h
      exact ⟨⟨ds, Or.inr rfl, hd⟩, hn⟩
    · obtain ⟨hd, hn⟩ := unsigned?_eq_some_iff.mp h
      exact ⟨⟨cs, Or.inl rfl, hd⟩, hn⟩
  · rintro ⟨⟨ds, rfl | rfl, hd⟩, hn⟩
    · rw [hd.read?]
      exact unsigned?_eq_some_iff.mpr ⟨hd, hn⟩
    · exact unsigned?_eq_some_iff.mpr ⟨hd, hn⟩

/-- A sign alone, a minus sign and the first number past the words are refused, leading
zeros are not. -/
example : read? ['+'] = none ∧ read? ['-', '1'] = none ∧
    read? "18446744073709551616".toList = none ∧ read? "+007".toList = some 7 := by decide

theorem denotes_toDigits (n : ℕ) : Denotes (Nat.toDigits 10 n) n where
  nonempty := Nat.toDigits_ne_nil
  digits := by
    intro c hc
    have hdigit := Nat.isDigit_of_mem_toDigits (by decide) (by decide) hc
    simpa [Char.isDigit, isDigit, Char.le_def] using hdigit
  number := by
    have hvalue : value (Nat.toDigits 10 n) = Nat.ofDigitChars 10 (Nat.toDigits 10 n) 0 :=
      Nat.ofDigitChars_eq_foldl.symm
    rw [← value_eq, hvalue, Nat.ofDigitChars_ten_toDigits]

theorem isDigit_range {c : Char} (h : isDigit c) : 48 ≤ c.toNat ∧ c.toNat ≤ 57 := by
  simpa [isDigit, Char.le_def, UInt32.le_iff_toNat_le] using h

theorem not_blank_of_isDigit {c : Char} (h : isDigit c) : ¬ Blank.isBlank c := by
  have hrange := isDigit_range h
  simp [Blank.isBlank, Blank.ranges]
  omega

theorem Denotes.surrounds {ds before after : List Char} {n : ℕ} (h : Denotes ds n)
    (hb : ∀ c ∈ before, Blank.isBlank c) (ha : ∀ c ∈ after, Blank.isBlank c) :
    Blank.Surrounds before ds after where
  before := hb
  after := ha
  first := fun c hc => not_blank_of_isDigit (h.digits c (List.mem_of_mem_head? hc))
  last := fun c hc => not_blank_of_isDigit (h.digits c (List.mem_of_mem_getLast? hc))

/-- Of a printed number between blanks the digits are left. -/
theorem trim_toString {before after : String} (hb : ∀ c ∈ before.toList, Blank.isBlank c)
    (ha : ∀ c ∈ after.toList, Blank.isBlank c) (n : ℕ) :
    Blank.trim (before ++ toString n ++ after).toList = Nat.toDigits 10 n := by
  rw [String.toList_append, String.toList_append, Nat.toString_eq_repr, Nat.toList_repr]
  exact Blank.trim_surrounded ((denotes_toDigits n).surrounds hb ha)

theorem read?_toDigits {n : ℕ} (h : n < wordLimit) : read? (Nat.toDigits 10 n) = some n :=
  read?_eq_some_iff.mpr ⟨⟨_, Or.inl rfl, denotes_toDigits n⟩, h⟩

theorem value_zeros (zeros : ℕ) (ds : List Char) :
    value (List.replicate zeros '0' ++ ds) = value ds := by
  induction zeros with
  | zero => rfl
  | succ zeros ih => exact ih

theorem digitChar_digit {c : Char} (h : isDigit c) :
    digit c < 10 ∧ Nat.digitChar (digit c) = c := by
  have hrange := isDigit_range h
  have hdigit : digit c = c.toNat - 48 := rfl
  have hlt : digit c < 10 := by omega
  constructor
  · exact hlt
  · apply Char.toNat_inj.mp
    rw [Nat.toNat_digitChar_of_lt_ten hlt]
    omega

/-- Digits are the printed form of their value, behind zeros. -/
theorem exists_zeros {ds : List Char} (hne : ds ≠ []) (hd : ∀ c ∈ ds, isDigit c) :
    ∃ zeros, ds = List.replicate zeros '0' ++ Nat.toDigits 10 (value ds) := by
  induction ds using List.reverseRecOn with
  | nil => exact absurd rfl hne
  | append_singleton ds c ih =>
    obtain ⟨hlt, hchar⟩ := digitChar_digit (hd c (by simp))
    have hvalue : value (ds ++ [c]) = 10 * value ds + digit c := value_concat ds c
    have hlast : Nat.toDigits 10 (digit c) = [c] := by rw [Nat.toDigits_of_lt_base hlt, hchar]
    by_cases hempty : ds = []
    · subst hempty
      have hnil : value [] = 0 := rfl
      rw [hvalue, hnil, Nat.mul_zero, Nat.zero_add, hlast]
      exact ⟨0, rfl⟩
    · obtain ⟨zeros, hzeros⟩ := ih hempty fun d h => hd d (by simp [h])
      by_cases h0 : value ds = 0
      · -- the digits so far are zeros, and the printed form of zero is one more of them
        use zeros + 1
        rw [h0] at hzeros
        rw [hvalue, h0, Nat.mul_zero, Nat.zero_add, hlast, hzeros, List.replicate_succ']
        rfl
      · use zeros
        have hjoin : Nat.toDigits 10 (value ds) ++ Nat.toDigits 10 (digit c) =
            Nat.toDigits 10 (10 * value ds + digit c) :=
          Nat.toDigits_append_toDigits (by decide) (Nat.pos_of_ne_zero h0) hlt
        rw [hvalue, ← hjoin, hlast, ← List.append_assoc, ← hzeros]

theorem denotes_iff {ds : List Char} {n : ℕ} :
    Denotes ds n ↔ ∃ zeros, ds = List.replicate zeros '0' ++ Nat.toDigits 10 n := by
  constructor
  · intro h
    have hvalue : value ds = n := (value_eq ds).trans h.number
    rw [← hvalue]
    exact exists_zeros h.nonempty h.digits
  · rintro ⟨zeros, rfl⟩
    have hn := denotes_toDigits n
    refine ⟨by simp [hn.nonempty], ?_, ?_⟩
    · intro c hc
      rcases List.mem_append.mp hc with hzero | hdigit
      · rw [List.eq_of_mem_replicate hzero]
        decide
      · exact hn.digits c hdigit
    · rw [← value_eq, value_zeros, value_eq]
      exact hn.number

/-- The printed form of the number behind a plus sign or zeros that it does not need. -/
def Redundant (cs : List Char) (n : ℕ) : Prop :=
  ∃ zeros, (cs = List.replicate zeros '0' ++ Nat.toDigits 10 n ∧ 0 < zeros) ∨
    cs = '+' :: (List.replicate zeros '0' ++ Nat.toDigits 10 n)

/-- Apart from the printed form all numerals of a number are redundant. -/
theorem redundant_iff {cs : List Char} {n : ℕ} :
    Redundant cs n ↔ Numeral cs n ∧ cs ≠ Nat.toDigits 10 n := by
  constructor
  · rintro ⟨zeros, ⟨rfl, hpos⟩ | rfl⟩
    · refine ⟨⟨_, Or.inl rfl, denotes_iff.mpr ⟨zeros, rfl⟩⟩, fun heq => ?_⟩
      have hlength := congrArg List.length heq
      rw [List.length_append, List.length_replicate] at hlength
      omega
    · refine ⟨⟨_, Or.inr rfl, denotes_iff.mpr ⟨zeros, rfl⟩⟩, fun heq => ?_⟩
      have hlength := congrArg List.length heq
      rw [List.length_cons, List.length_append, List.length_replicate] at hlength
      omega
  · rintro ⟨⟨ds, hcs, hd⟩, hne⟩
    obtain ⟨zeros, rfl⟩ := denotes_iff.mp hd
    use zeros
    rcases hcs with rfl | rfl
    · left
      refine ⟨rfl, Nat.pos_of_ne_zero ?_⟩
      rintro rfl
      exact hne rfl
    · exact Or.inr rfl

end Decimal

end ChunkHeap
