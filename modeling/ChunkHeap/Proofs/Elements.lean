import Mathlib
import ChunkHeap.Proofs.Scalars

/-!
# Blocks and their elements

A block of bytes, of code units or of zeros is moved at once. Reading or writing its
elements one after the other gives the same values and the same memory. A code unit is
two bytes, so its block is twice as long as the list of units.
-/

set_option autoImplicit false

namespace ChunkHeap

namespace Memory

variable (m : Memory) (a : ℕ)

theorem write_nil : m.write a [] = m := by
  funext x
  exact overlay_outside m _ (by simp; omega)

theorem write_append (bs cs : List UInt8) :
    m.write a (bs ++ cs) = (m.write a bs).write (a + bs.length) cs := by
  funext x
  simp only [write]
  rw [List.length_append]
  by_cases hlow : a ≤ x ∧ x < a + bs.length
  · rw [overlay_inside _ _ (by omega), overlay_outside _ _ (by omega), overlay_inside _ _ hlow,
      List.getD_append _ _ _ _ (by omega)]
  · by_cases hhigh : a + bs.length ≤ x ∧ x < a + bs.length + cs.length
    · rw [overlay_inside _ _ (by omega), overlay_inside _ _ hhigh,
        List.getD_append_right _ _ _ _ (by omega), Nat.sub_add_eq]
    · rw [overlay_outside _ _ (by omega), overlay_outside _ _ (by omega),
        overlay_outside _ _ (by omega)]

theorem agreesOff_write (bs : List UInt8) : m.AgreesOff (m.write a bs) ⟨a, bs.length⟩ :=
  agreesOff_overlay m a _ _

theorem write_inside (bs : List UInt8) {i : ℕ} (hi : i < bs.length) :
    m.write a bs (a + i) = bs[i] := by
  rw [write, overlay_inside _ _ (by omega), Nat.add_sub_cancel_left, List.getD_eq_getElem _ _ hi]

theorem bytes_write (bs : List UInt8) : (m.write a bs).bytes a bs.length = bs := by
  apply List.ext_getElem
  · simp [bytes]
  · intro i _ hi
    simp [bytes, m.write_inside a bs hi]

theorem bytes_add (k l : ℕ) : m.bytes a (k + l) = m.bytes a k ++ m.bytes (a + k) l := by
  simp [bytes, List.range_add, Function.comp_def, Nat.add_assoc]

/-- Zeros are bytes like any others. -/
theorem zeroOut_eq (n : ℕ) : m.zeroOut a n = m.putBytes a (List.replicate n 0) := by
  funext x
  simp only [zeroOut, fill, putBytes, write, List.length_replicate, overlay]
  split_ifs with hx
  · rw [List.getD_eq_getElem _ _ (by simp; omega), List.getElem_replicate]
  · rfl

/-- A word is stored as the list of its bytes. -/
theorem store_eq_write (k n : ℕ) :
    m.store a k n = m.write a ((List.range k).map fun i => UInt8.ofNat (n >>> (8 * i))) := by
  funext x
  by_cases hx : a ≤ x ∧ x < a + k
  · obtain ⟨i, rfl⟩ := Nat.exists_eq_add_of_le hx.1
    rw [store, overlay_inside _ _ hx, Nat.add_sub_cancel_left,
      m.write_inside a _ (by simp; omega), List.getElem_map, List.getElem_range]
  · rw [store, overlay_outside _ _ (by omega), write, overlay_outside _ _ (by simp; omega)]

theorem unitBytes_cons (u : UInt16) (us : List UInt16) :
    unitBytes (u :: us) = unitBytes [u] ++ unitBytes us := by
  simp [unitBytes]

theorem putByte_eq (b : UInt8) : m.putByte a b.toInt8 = m.write a [b] := by
  rw [putByte, store_eq_write]
  simp [List.range_succ]

theorem getByte_eq : m.getByte a = (m a).toInt8 := by
  have hload : m.load a 1 = (m a).toNat := by simp [load]
  rw [getByte, hload]
  exact Int8.ofNat_bitVecToNat (m a).toBitVec

theorem putShort_eq (u : UInt16) : m.putShort a u.toInt16 = m.write a (unitBytes [u]) := by
  have hword : u.toInt16.toBitVec.toNat = u.toNat := rfl
  have hhigh : UInt8.ofNat (u.toNat >>> 8) = (u >>> 8).toUInt8 := rfl
  rw [putShort, store_eq_write, hword]
  simp [List.range_succ, unitBytes, hhigh]

theorem getUnits_succ (n : ℕ) :
    m.getUnits a (n + 1) = UInt16.ofNat (m.load a 2) :: m.getUnits (a + 2) n := by
  rw [getUnits, List.range_succ_eq_map, List.map_cons, List.map_map]
  congr 1
  apply List.map_congr_left
  intro i _
  rw [Function.comp_apply, Nat.mul_succ, show a + (2 * i + 2) = a + 2 + 2 * i by omega]

theorem unitBytes_load : unitBytes [UInt16.ofNat (m.load a 2)] = m.bytes a 2 := by
  have hlow : (m a).toNat < 256 := (m a).toNat_lt
  have hhigh : (m (a + 1)).toNat < 256 := (m (a + 1)).toNat_lt
  have hload : m.load a 2 = (m a).toNat + 256 * (m (a + 1)).toNat := by simp [load]
  simp only [unitBytes, bytes, List.range_succ, List.range_zero, List.flatMap_cons]
  simp [← UInt8.toNat_inj, hload, Nat.shiftRight_eq_div_pow]
  omega

/-- The units of a block are its bytes by twos. -/
theorem unitBytes_getUnits (n : ℕ) : unitBytes (m.getUnits a n) = m.getBytes a (2 * n) := by
  induction n generalizing a with
  | zero => rfl
  | succ n ih =>
    rw [getUnits_succ, unitBytes_cons, unitBytes_load, ih, Nat.mul_succ, Nat.add_comm (2 * n)]
    exact (m.bytes_add a 2 (2 * n)).symm

theorem unit_eq {u v : UInt16} (hlow : u.toUInt8 = v.toUInt8)
    (hhigh : (u >>> 8).toUInt8 = (v >>> 8).toUInt8) : u = v := by
  have hu : u.toNat < 65536 := u.toNat_lt
  have hv : v.toNat < 65536 := v.toNat_lt
  have hlow' := congrArg UInt8.toNat hlow
  have hhigh' := congrArg UInt8.toNat hhigh
  simp [Nat.shiftRight_eq_div_pow] at hlow' hhigh'
  apply UInt16.toNat_inj.mp
  omega

theorem unitBytes_injective : Function.Injective unitBytes := by
  intro us vs h
  induction us generalizing vs with
  | nil =>
    cases vs with
    | nil => rfl
    | cons v vs => cases h
  | cons u us ih =>
    cases vs with
    | nil => cases h
    | cons v vs =>
      obtain ⟨hlow, htail⟩ := List.cons.inj h
      obtain ⟨hhigh, hrest⟩ := List.cons.inj htail
      rw [unit_eq hlow hhigh, ih hrest]

theorem length_unitBytes (us : List UInt16) : (unitBytes us).length = 2 * us.length := by
  simp [unitBytes, List.length_flatMap, Nat.mul_comm]

theorem getUnits_putUnits (us : List UInt16) : (m.putUnits a us).getUnits a us.length = us := by
  apply unitBytes_injective
  rw [unitBytes_getUnits, ← length_unitBytes]
  exact m.bytes_write a _

end Memory

namespace Script

/-- The value that a byte of a block is, read or written alone. -/
def byteValue (b : UInt8) : Value := .byte b.toInt8

/-- The value that a code unit of a block is, read or written alone. -/
def unitValue (u : UInt16) : Value := .short u.toInt16

namespace Access

/-- The accesses in turn: what each of them answers, and the memory after the last. -/
def performAll (model : DataModel) (base size : ℕ) :
    Memory → List Access → List (Except Trouble Reading) × Memory
  | m, [] => ([], m)
  | m, access :: rest =>
      let (answer, m) := access.perform model base size m
      let (answers, m) := performAll model base size m rest
      (answer :: answers, m)

/-- Elements that are `width` bytes each, alone and in a block. -/
structure Elements (model : DataModel) {α : Type} (value : α → Value) (bytes : α → List UInt8)
    (width : ℕ) : Prop where
  kind_width : ∀ x, (value x).kind.width model = width
  length_bytes : ∀ x, (bytes x).length = width
  write_bytes : ∀ (m : Memory) (a : ℕ) (x : α), writeValue model m a (value x) = m.write a (bytes x)

/-- A block access writes the values as accesses to one after the other do, `width` bytes each,
and changes nothing else. -/
structure Writes (model : DataModel) (base size : ℕ) (m : Memory) (block : Access)
    (pos width : ℕ) (vs : List Value) (m' : Memory) : Prop where
  whole : block.perform model base size m = (.ok .nothing, m')
  single : performAll model base size m (vs.mapIdx fun i v => put v (pos + width * i)) =
    (vs.map fun _ => .ok .nothing, m')
  kept : m.AgreesOff m' ⟨base + pos, width * vs.length⟩

/-- A block access reads what accesses to one value after the other read, and none changes
anything. -/
structure Reads (model : DataModel) (base size : ℕ) (m : Memory) (block : Access) (kind : Kind)
    (pos width : ℕ) (reading : Reading) (vs : List Value) : Prop where
  whole : block.perform model base size m = (.ok reading, m)
  single : performAll model base size m
      ((List.range vs.length).map fun i => get kind (pos + width * i)) =
    (vs.map fun v => .ok (.value v), m)

variable {model : DataModel} {base size pos : ℕ} {m : Memory}

theorem elements_bytes (model : DataModel) : Elements model byteValue (fun b => [b]) 1 where
  kind_width := fun _ => rfl
  length_bytes := fun _ => rfl
  write_bytes := fun m a b => m.putByte_eq a b

theorem elements_units (model : DataModel) :
    Elements model unitValue (fun u => Memory.unitBytes [u]) 2 where
  kind_width := fun _ => rfl
  length_bytes := fun _ => rfl
  write_bytes := fun m a u => m.putShort_eq a u

section

variable {α : Type} {value : α → Value} {bytes : α → List UInt8} {width : ℕ} {xs : List α}

theorem Elements.length_flatMap (h : Elements model value bytes width) (xs : List α) :
    (xs.flatMap bytes).length = width * xs.length := by
  simp [List.length_flatMap, h.length_bytes, Nat.mul_comm]

theorem Elements.performAll_put (h : Elements model value bytes width) (base : ℕ) (m : Memory)
    (hfit : pos + width * xs.length ≤ size) :
    performAll model base size m ((xs.map value).mapIdx fun i v => put v (pos + width * i)) =
      ((xs.map value).map fun _ => .ok .nothing, m.write (base + pos) (xs.flatMap bytes)) := by
  induction xs generalizing m pos with
  | nil => rw [List.flatMap_nil, Memory.write_nil]; rfl
  | cons x xs ih =>
    rw [List.length_cons, Nat.mul_succ] at hfit
    have hput : (put (value x) pos).perform model base size m =
        (.ok .nothing, m.write (base + pos) (bytes x)) := by
      have hx : pos + width ≤ size := by omega
      simp [perform, fits, ranges, run, h.kind_width, h.write_bytes, hx]
    have hfit' : pos + width + width * xs.length ≤ size := by omega
    have hrest := ih (m.write (base + pos) (bytes x)) hfit'
    -- seen from the second element on, every offset is `width` less
    have hshift : ((xs.map value).mapIdx fun i v => put v (pos + width * (i + 1))) =
        (xs.map value).mapIdx fun i v => put v (pos + width + width * i) := by
      congr 1
      funext i v
      rw [Nat.mul_succ, show pos + (width * i + width) = pos + width + width * i by omega]
    rw [List.map_cons, List.mapIdx_cons, hshift, performAll, Nat.mul_zero, Nat.add_zero, hput]
    simp only [hrest]
    rw [List.flatMap_cons, Memory.write_append, h.length_bytes, Nat.add_assoc, List.map_cons]

/-- A block is written like its elements if it is their bytes in a row. -/
theorem Elements.writes (h : Elements model value bytes width) {block : Access} {m' : Memory}
    (hfit : pos + width * xs.length ≤ size)
    (hblock : block.perform model base size m = (.ok .nothing, m'))
    (hm' : m' = m.write (base + pos) (xs.flatMap bytes)) :
    Writes model base size m block pos width (xs.map value) m' where
  whole := hblock
  single := by
    rw [hm']
    exact h.performAll_put base m hfit
  kept := by
    rw [hm', List.length_map, ← h.length_flatMap]
    exact m.agreesOff_write _ _

end

theorem performAll_get (base : ℕ) (m : Memory) (kind : Kind) {places : List ℕ}
    (hfit : ∀ p ∈ places, p + kind.width model ≤ size) :
    performAll model base size m (places.map (get kind)) =
      (places.map fun p => .ok (.value (readValue model m (base + p) kind)), m) := by
  induction places with
  | nil => rfl
  | cons p places ih =>
    have hp : p + kind.width model ≤ size := hfit p List.mem_cons_self
    have hget : (get kind p).perform model base size m =
        (.ok (.value (readValue model m (base + p) kind)), m) := by
      simp [perform, fits, ranges, run, hp]
    have hrest := ih fun q hq => hfit q (List.mem_cons_of_mem _ hq)
    rw [List.map_cons, performAll, hget]
    simp only [hrest]
    rfl

/-- What accesses to a row of values read, said about the values. -/
theorem reads_of_values {block : Access} {kind : Kind} (width n : ℕ) {reading : Reading}
    {vs : List Value} (hfit : pos + width * n ≤ size) (hwidth : kind.width model = width)
    (hblock : block.perform model base size m = (.ok reading, m))
    (hvs : vs = (List.range n).map fun i => readValue model m (base + pos + width * i) kind) :
    Reads model base size m block kind pos width reading vs where
  whole := hblock
  single := by
    have hlen : vs.length = n := by simp [hvs]
    have hplaces : ∀ p ∈ (List.range n).map (pos + width * ·), p + kind.width model ≤ size := by
      intro p hp
      obtain ⟨i, hi, rfl⟩ := List.mem_map.mp hp
      have hi' : width * (i + 1) ≤ width * n := Nat.mul_le_mul_left _ (List.mem_range.mp hi)
      rw [Nat.mul_succ] at hi'
      simp only [hwidth]
      omega
    have hget := performAll_get base m kind hplaces
    rw [hlen, hvs]
    simpa [List.map_map, Function.comp_def, Nat.add_assoc] using hget

/-- Accesses to blocks at an offset of a buffer do what accesses to their elements do. -/
structure Elementwise (model : DataModel) (base size : ℕ) (m : Memory) (pos : ℕ) : Prop where
  putBytes : ∀ bs : List UInt8, pos + bs.length ≤ size → ∃ m',
    Writes model base size m (.putBytes pos bs) pos 1 (bs.map byteValue) m' ∧
    (Access.getBytes pos bs.length).perform model base size m' = (.ok (.bytes bs), m')
  putUnits : ∀ us : List UInt16, pos + 2 * us.length ≤ size → ∃ m',
    Writes model base size m (.putUnits pos us) pos 2 (us.map unitValue) m' ∧
    (Access.getUnits pos us.length).perform model base size m' = (.ok (.units us), m')
  zeroOut : ∀ n, pos + n ≤ size → ∃ m',
    Writes model base size m (.zeroOut pos n) pos 1 (List.replicate n (.byte 0)) m'
  getBytes : ∀ n, pos + n ≤ size → ∃ bs : List UInt8, bs.length = n ∧
    Reads model base size m (.getBytes pos n) .byte pos 1 (.bytes bs) (bs.map byteValue)
  getUnits : ∀ n, pos + 2 * n ≤ size → ∃ us : List UInt16, us.length = n ∧
    Memory.unitBytes us = m.bytes (base + pos) (2 * n) ∧
    Reads model base size m (.getUnits pos n) .short pos 2 (.units us) (us.map unitValue)

theorem blocks_elementwise (model : DataModel) (base size : ℕ) (m : Memory) (pos : ℕ) :
    Elementwise model base size m pos where
  putBytes := by
    intro bs hfit
    have hread : (m.putBytes (base + pos) bs).getBytes (base + pos) bs.length = bs :=
      m.bytes_write _ bs
    refine ⟨m.putBytes (base + pos) bs, ?_, ?_⟩
    · apply (elements_bytes model).writes (by omega)
      · simp [perform, fits, ranges, run, hfit]
      · simp [Memory.putBytes]
    · simp [perform, fits, ranges, run, hfit, hread]
  putUnits := by
    intro us hfit
    have hread := m.getUnits_putUnits (base + pos) us
    refine ⟨m.putUnits (base + pos) us, ?_, ?_⟩
    · apply (elements_units model).writes hfit
      · simp [perform, fits, ranges, run, hfit]
      · simp [Memory.putUnits, Memory.unitBytes]
    · simp [perform, fits, ranges, run, hfit, hread]
  zeroOut := by
    intro n hfit
    have hvalues : List.replicate n (.byte 0) = (List.replicate n 0).map byteValue := by
      rw [List.map_replicate]
      rfl
    rw [hvalues]
    refine ⟨m.zeroOut (base + pos) n, ?_⟩
    apply (elements_bytes model).writes (by simpa using hfit)
    · simp [perform, fits, ranges, run, hfit]
    · rw [Memory.zeroOut_eq]
      simp [Memory.putBytes]
  getBytes := by
    intro n hfit
    refine ⟨m.getBytes (base + pos) n, by simp [Memory.getBytes, Memory.bytes], ?_⟩
    apply reads_of_values 1 n (by omega) rfl
    · simp [perform, fits, ranges, run, hfit]
    · simp [Memory.getBytes, Memory.bytes, byteValue, readValue, Memory.getByte_eq]
  getUnits := by
    intro n hfit
    refine ⟨m.getUnits (base + pos) n, by simp [Memory.getUnits], m.unitBytes_getUnits _ n, ?_⟩
    apply reads_of_values 2 n hfit rfl
    · simp [perform, fits, ranges, run, hfit]
    · simp [Memory.getUnits, unitValue, readValue, Memory.getShort]

/-- A lone half of a surrogate pair goes in and out of a block like any other unit. -/
theorem blocks_elementwise_surrogate :
    3 + 2 * [0xD83D, 0x41].length ≤ 8 ∧ ∃ m',
      Writes .bits64 100 8 Memory.zero (putUnits 3 [0xD83D, 0x41]) 3 2
        [.short (-10179), .short 65] m' ∧
      (getUnits 3 2).perform .bits64 100 8 m' = (.ok (.units [0xD83D, 0x41]), m') :=
  ⟨by decide, (blocks_elementwise .bits64 100 8 Memory.zero 3).putUnits [0xD83D, 0x41] (by decide)⟩

end Access

end Script

end ChunkHeap
