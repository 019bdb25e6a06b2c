import Mathlib
import ChunkHeap.Heap.Basic
import ChunkHeap.Proofs.Numerals

/-!
# Heaps set up from a variable

A variable that holds the numeral of a machine word, between blanks or not, decides on the
region size, and a heap is refused if that size cannot be one. With any other variable the
heap has the default region size.
-/

set_option autoImplicit false

namespace ChunkHeap

namespace Variable

/-- The variable holds the text, written out or encoded in bytes. -/
def Holds : Variable → String → Prop
  | .unset, _ => False
  | .text s, t => s = t
  | .bytes bs, t => t.toByteArray = ⟨bs.toArray⟩

/-- The variable holds a numeral of the number with nothing but blanks around it. -/
def Names (v : Variable) (n : ℕ) : Prop :=
  ∃ t before numeral after, v.Holds t ∧ t.toList = before ++ numeral ++ after ∧
    Blank.Surrounds before numeral after ∧ Decimal.Numeral numeral n

variable {v : Variable} {n : ℕ}

theorem text?_eq_some_iff {t : String} : v.text? = some t ↔ v.Holds t := by
  cases v with
  | unset => simp [text?, Holds]
  | text s => simp [text?, Holds]
  | bytes bs =>
    rw [text?, Holds, String.fromUTF8?]
    constructor
    · intro h
      split_ifs at h with hvalid
      obtain rfl := Option.some.inj h
      rfl
    · intro h
      have hvalid : ByteArray.IsValidUTF8 ⟨bs.toArray⟩ := h ▸ t.isValidUTF8
      rw [dif_pos hvalid]
      exact congrArg some (String.toByteArray_inj.mp h.symm)

/-- What reading the stripped text of the variable finds. -/
theorem read?_eq_some_iff :
    (v.text?.bind fun t => Decimal.read? (Blank.trim t.toList)) = some n ↔
      v.Names n ∧ n < wordLimit := by
  simp only [Option.bind_eq_some_iff, text?_eq_some_iff, Decimal.read?_eq_some_iff]
  constructor
  · rintro ⟨t, ht, hnumeral, hn⟩
    obtain ⟨before, after, heq, hs⟩ := Blank.trim_eq_iff.mp rfl
    exact ⟨⟨t, before, _, after, ht, heq, hs, hnumeral⟩, hn⟩
  · rintro ⟨⟨t, before, numeral, after, ht, heq, hs, hnumeral⟩, hn⟩
    have htrim : Blank.trim t.toList = numeral := Blank.trim_eq_iff.mpr ⟨before, after, heq, hs⟩
    exact ⟨t, ht, htrim ▸ hnumeral, hn⟩

end Variable

namespace Config

variable {v : Variable} {n : ℕ}

end Config

end ChunkHeap
