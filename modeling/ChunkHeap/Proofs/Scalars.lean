import Mathlib
import ChunkHeap.Proofs.Span
import ChunkHeap.Proofs.Words
import ChunkHeap.Script.Access

/-!
# One memory for values of all widths

A value is written as the word of its bit pattern, the low byte first. So a wide
value is its low half followed by its high half, in writing and in reading, and
what one kind has written may be read as another.
-/

set_option autoImplicit false

namespace ChunkHeap

namespace Memory

variable (m : Memory) (a : ℕ)

theorem load_add (k l : ℕ) : m.load a (k + l) = m.load a k + 256 ^ k * m.load (a + k) l := by
  induction k generalizing a with
  | zero => simp [load]
  | succ k ih =>
    rw [Nat.succ_add, load, load, ih, pow_succ, show a + 1 + k = a + (k + 1) by omega]
    ring

theorem load_lt (k : ℕ) : m.load a k < 256 ^ k := by
  induction k generalizing a with
  | zero => simp [load]
  | succ k ih =>
    have hbyte : (m a).toNat < 256 := (m a).toNat_lt
    have hrest := ih (a + 1)
    rw [load, pow_succ]
    omega

theorem byte_mod {i k : ℕ} (n : ℕ) (hi : i < k) :
    UInt8.ofNat ((n % 256 ^ k) >>> (8 * i)) = UInt8.ofNat (n >>> (8 * i)) := by
  obtain ⟨j, rfl⟩ := Nat.exists_eq_add_of_lt hi
  have hpow : 256 ^ (i + j + 1) = 2 ^ (8 * i) * (256 ^ j * 256) := by
    rw [pow_mul, pow_add, pow_add]
    ring
  apply UInt8.toNat_inj.mp
  rw [UInt8.toNat_ofNat', UInt8.toNat_ofNat', Nat.shiftRight_eq_div_pow,
    Nat.shiftRight_eq_div_pow, hpow, Nat.mod_mul_right_div_self]
  exact Nat.mod_mul_left_mod _ _ _

/-- Only the bits below the width are stored. -/
theorem store_congr {k n n' : ℕ} (h : n % 256 ^ k = n' % 256 ^ k) :
    m.store a k n = m.store a k n' := by
  funext x
  simp only [store, overlay]
  split_ifs with hx
  · rw [← byte_mod n (show x - a < k by omega), h, byte_mod n' (by omega)]
  · rfl

theorem store_add (k l n : ℕ) :
    m.store a (k + l) n = (m.store a k n).store (a + k) l (n >>> (8 * k)) := by
  funext x
  by_cases hlow : a ≤ x ∧ x < a + k
  · simp only [store]
    rw [overlay_inside _ _ (by omega), overlay_outside _ _ (by omega), overlay_inside _ _ hlow]
  · by_cases hhigh : a + k ≤ x ∧ x < a + k + l
    · simp only [store]
      rw [overlay_inside _ _ (by omega), overlay_inside _ _ hhigh, ← Nat.shiftRight_add]
      congr 2
      omega
    · simp only [store]
      rw [overlay_outside _ _ (by omega), overlay_outside _ _ (by omega),
        overlay_outside _ _ (by omega)]

/-- A word is stored half by half. -/
theorem store_halves {k n low high : ℕ} (hl : n % 256 ^ k = low % 256 ^ k)
    (hh : (n >>> (8 * k)) % 256 ^ k = high % 256 ^ k) :
    m.store a (k + k) n = (m.store a k low).store (a + k) k high := by
  rw [store_add, m.store_congr a hl, store_congr _ _ hh]

end Memory

namespace Script

/-- The bit pattern of a value. -/
def Value.word : Value → ℕ
  | .byte v => v.toBitVec.toNat
  | .short v => v.toBitVec.toNat
  | .int v => v.toBitVec.toNat
  | .long v => v.toBitVec.toNat
  | .float pattern => pattern.toNat
  | .double pattern => pattern.toNat
  | .pointer v => v.toNat

/-- The value of a kind that a bit pattern stands for. -/
def Value.ofWord (n : ℕ) : Kind → Value
  | .byte => .byte (.ofNat n)
  | .short => .short (.ofNat n)
  | .int => .int (.ofNat n)
  | .long => .long (.ofNat n)
  | .float => .float (.ofNat n)
  | .double => .double (.ofNat n)
  | .pointer => .pointer (.ofNat n)

variable (model : DataModel) (m : Memory) (a : ℕ)

theorem writeValue_eq (v : Value) :
    writeValue model m a v = m.store a (v.kind.width model) v.word := by
  cases v with
  | pointer v =>
    cases model with
    | bits32 =>
      apply m.store_congr a
      change v.toUInt32.toNat % 256 ^ 4 = v.toNat % 256 ^ 4
      rw [UInt64.toNat_toUInt32]
      exact Nat.mod_mod _ _
    | bits64 => rfl
  | _ => rfl

theorem readValue_eq (kind : Kind) :
    readValue model m a kind = .ofWord (m.load a (kind.width model)) kind := by
  cases kind with
  | pointer =>
    cases model with
    | bits32 =>
      have hlt : m.load a 4 < 2 ^ 32 := m.load_lt a 4
      refine congrArg Value.pointer (UInt64.toNat_inj.mp ?_)
      change m.load a 4 % 2 ^ 32 = m.load a 4 % 2 ^ 64
      omega
    | bits64 => rfl
  | _ => rfl

theorem Value.word_lt {v : Value} (hv : v.kind ≠ .pointer) :
    v.word < 256 ^ v.kind.width model := by
  cases v with
  | byte v => exact v.toBitVec.isLt
  | short v => exact v.toBitVec.isLt
  | int v => exact v.toBitVec.isLt
  | long v => exact v.toBitVec.isLt
  | float pattern => exact pattern.toNat_lt
  | double pattern => exact pattern.toNat_lt
  | pointer v => exact absurd rfl hv

theorem Value.ofWord_word (v : Value) : ofWord v.word v.kind = v := by
  cases v with
  | byte v => exact congrArg Value.byte (Int8.ofNat_bitVecToNat _)
  | short v => exact congrArg Value.short (Int16.ofNat_bitVecToNat _)
  | int v => exact congrArg Value.int (Int32.ofNat_bitVecToNat _)
  | long v => exact congrArg Value.long (Int64.ofNat_bitVecToNat _)
  | float pattern => exact congrArg Value.float UInt32.ofNat_toNat
  | double pattern => exact congrArg Value.double UInt64.ofNat_toNat
  | pointer v => exact congrArg Value.pointer UInt64.ofNat_toNat

theorem readValue_writeValue {v : Value} (hv : v.kind ≠ .pointer) :
    readValue model (writeValue model m a v) a v.kind = v := by
  rw [readValue_eq, writeValue_eq, Memory.load_store, Nat.mod_eq_of_lt (v.word_lt model hv)]
  exact v.ofWord_word

end Script

namespace Memory

/-- An arithmetic shift by half the width leaves the upper half. -/
theorem upper_half {w : ℕ} (x : BitVec (w + w)) :
    ((x.sshiftRight w).setWidth w).toNat = x.toNat >>> w := by
  have hlt : x.toNat >>> w < 2 ^ w := by
    rw [Nat.shiftRight_eq_div_pow, Nat.div_lt_iff_lt_mul (Nat.two_pow_pos w), ← pow_add]
    exact x.isLt
  have hbits : (x.sshiftRight w).setWidth w = (x >>> w).setWidth w := by
    apply BitVec.eq_of_getLsbD_eq
    intro i hi
    rw [BitVec.getLsbD_setWidth, BitVec.getLsbD_setWidth, BitVec.getLsbD_sshiftRight,
      BitVec.getLsbD_ushiftRight]
    simp [show ¬ w + w ≤ i by omega, hi]
  rw [hbits, BitVec.toNat_setWidth, BitVec.toNat_ushiftRight, Nat.mod_eq_of_lt hlt]

/-- The number of a word is that of its upper half, with the sign, in units of the
lower half. -/
theorem toInt_halves {w low : ℕ} (hw : w ≠ 0) (hl : low < 2 ^ w) (high : ℕ) :
    (BitVec.ofNat (w + w) (low + 2 ^ w * high)).toInt =
      2 ^ w * (BitVec.ofNat w high).toInt + low := by
  have happend : BitVec.ofNat (w + w) (low + 2 ^ w * high) =
      BitVec.ofNat w high ++ BitVec.ofNat w low := by
    apply BitVec.eq_of_toNat_eq
    have hlow : low % 2 ^ w = low := Nat.mod_eq_of_lt hl
    rw [BitVec.toNat_append, BitVec.toNat_ofNat, BitVec.toNat_ofNat, BitVec.toNat_ofNat,
      pow_add, Nat.mod_mul, Nat.add_mul_mod_self_left, Nat.add_mul_div_left _ _ (Nat.two_pow_pos w),
      Nat.div_eq_of_lt hl, Nat.zero_add, hlow, ← Nat.shiftLeft_add_eq_or_of_lt hl,
      Nat.shiftLeft_eq]
    ring
  rw [happend, BitVec.toInt_append, if_neg (by simpa using hw), BitVec.toNat_ofNat,
    Nat.mod_eq_of_lt hl]

variable (m : Memory) (a : ℕ)

/-- A signed word is stored as its low half and, shifted down, its high half. -/
theorem store_signed {k : ℕ} (x : BitVec (8 * k + 8 * k)) :
    m.store a (k + k) x.toNat = (m.store a k (x.signExtend (8 * k)).toNat).store (a + k) k
      ((x.sshiftRight (8 * k)).signExtend (8 * k)).toNat := by
  have hle : 8 * k ≤ 8 * k + 8 * k := Nat.le_add_left _ _
  have hpow : 256 ^ k = 2 ^ (8 * k) := (pow_mul 2 8 k).symm
  rw [BitVec.signExtend_eq_setWidth_of_le _ hle, BitVec.signExtend_eq_setWidth_of_le _ hle,
    upper_half]
  apply m.store_halves a
  · rw [BitVec.toNat_setWidth, hpow, Nat.mod_mod]
  · rfl

/-- A signed word is loaded as its high half and, without a sign, its low half. -/
theorem load_signed {k : ℕ} (hk : k ≠ 0) :
    (BitVec.ofNat (8 * k + 8 * k) (m.load a (k + k))).toInt =
      2 ^ (8 * k) * (BitVec.ofNat (8 * k) (m.load (a + k) k)).toInt + m.load a k := by
  have hpow : 256 ^ k = 2 ^ (8 * k) := (pow_mul 2 8 k).symm
  have hlt : m.load a k < 2 ^ (8 * k) := hpow ▸ m.load_lt a k
  rw [load_add, hpow]
  exact toInt_halves (by omega) hlt _

/-- Every kind of value is a view of the same bytes at an address. -/
structure Coherent (model : DataModel) (m : Memory) (a : ℕ) : Prop where
  returned : ∀ v : Script.Value, v.kind ≠ .pointer →
    Script.readValue model (Script.writeValue model m a v) a v.kind = v
  kept : ∀ v : Script.Value, m.AgreesOff (Script.writeValue model m a v) ⟨a, v.kind.width model⟩
  commutes : ∀ (v v' : Script.Value) (b : ℕ),
    Span.Disjoint ⟨a, v.kind.width model⟩ ⟨b, v'.kind.width model⟩ →
    Script.writeValue model (Script.writeValue model m a v) b v' =
      Script.writeValue model (Script.writeValue model m b v') a v
  putLong : ∀ v, m.putLong a v = (m.putInt a v.toInt32).putInt (a + 4) (v >>> 32).toInt32
  putInt : ∀ v, m.putInt a v = (m.putShort a v.toInt16).putShort (a + 2) (v >>> 16).toInt16
  putShort : ∀ v, m.putShort a v = (m.putByte a v.toInt8).putByte (a + 1) (v >>> 8).toInt8
  getLong : (m.getLong a).toInt =
    2 ^ 32 * (m.getInt (a + 4)).toInt + (m.getInt a).toUInt32.toNat
  getInt : (m.getInt a).toInt =
    2 ^ 16 * (m.getShort (a + 2)).toInt + (m.getShort a).toUInt16.toNat
  getShort : (m.getShort a).toInt =
    2 ^ 8 * (m.getByte (a + 1)).toInt + (m.getByte a).toUInt8.toNat
  float : (∀ p, m.putFloat a p = m.putInt a p.toInt32) ∧ m.getFloat a = (m.getInt a).toUInt32
  double : (∀ p, m.putDouble a p = m.putLong a p.toInt64) ∧ m.getDouble a = (m.getLong a).toUInt64

theorem scalars_coherent (model : DataModel) : m.Coherent model a where
  returned := fun v hv => Script.readValue_writeValue model m a hv
  kept := by
    intro v
    rw [Script.writeValue_eq]
    exact agreesOff_overlay m a _ _
  commutes := by
    intro v v' b hd
    simp only [Script.writeValue_eq]
    exact overlay_comm m _ _ hd
  putLong := fun v => m.store_signed a (k := 4) v.toBitVec
  putInt := fun v => m.store_signed a (k := 2) v.toBitVec
  putShort := fun v => m.store_signed a (k := 1) v.toBitVec
  getLong := by
    have hlow : (m.getInt a).toUInt32.toNat = m.load a 4 := Nat.mod_eq_of_lt (m.load_lt a 4)
    rw [hlow]
    exact m.load_signed a (k := 4) (by decide)
  getInt := by
    have hlow : (m.getShort a).toUInt16.toNat = m.load a 2 := Nat.mod_eq_of_lt (m.load_lt a 2)
    rw [hlow]
    exact m.load_signed a (k := 2) (by decide)
  getShort := by
    have hlow : (m.getByte a).toUInt8.toNat = m.load a 1 := Nat.mod_eq_of_lt (m.load_lt a 1)
    rw [hlow]
    exact m.load_signed a (k := 1) (by decide)
  float := ⟨fun p => rfl, rfl⟩
  double := ⟨fun p => rfl, rfl⟩

/-- The upper half of a negative number is read as a short of its own. -/
example : ((Memory.zero.putInt 3 (-70000)).getShort 5, (Memory.zero.putInt 3 (-70000)).getShort 4) =
    (-2, -274) := by decide

end Memory

end ChunkHeap
