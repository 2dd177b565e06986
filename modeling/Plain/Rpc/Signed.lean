import Plain.Rpc.Integer

/-! # Round trips of signed integers

A signed number is sent as one raw byte or behind the tag of the narrowest type
its encoder finds for it. Tagged numbers come back at every width. A raw byte is
assigned without its sign by the wide decoders.
-/

namespace Plain.Rpc

open Unpacker

def Tag.intSize : Tag → ℕ
  | .int8 => 1
  | .int16 => 2
  | .int32 => 4
  | .int64 => 8
  | _ => 0

def Tag.InRange (t : Tag) (i : ℤ) : Prop :=
  -2 ^ (8 * t.intSize - 1) ≤ i ∧ i < 2 ^ (8 * t.intSize - 1)

def encodeTagged (t : Tag) (i : ℤ) : List Byte :=
  t.toByte :: bigEndian (BitVec.ofInt (8 * t.intSize) i).toNat t.intSize

def encodeInt8 (i : ℤ) : List Byte :=
  if 0 < i ∧ i < 26 then encodeTagged .int8 i else [BitVec.ofInt 8 i]

def encodeInt16 (i : ℤ) : List Byte :=
  if -128 < i ∧ i < 128 then encodeInt8 i else encodeTagged .int16 i

def encodeInt32 (i : ℤ) : List Byte :=
  if -32768 < i ∧ i < 32768 then encodeInt16 i else encodeTagged .int32 i

section Complement

variable {w p : ℕ}

theorem setWidth_ofInt (h : w ≤ p) (i : ℤ) :
    (BitVec.ofInt p i).setWidth w = BitVec.ofInt w i := by
  have hne : ((2 ^ p : ℕ) : ℤ) ≠ 0 := by simp
  have hd : ((2 ^ w : ℕ) : ℤ) ∣ ((2 ^ p : ℕ) : ℤ) := by exact_mod_cast Nat.pow_dvd_pow 2 h
  apply BitVec.eq_of_toInt_eq
  rw [BitVec.toInt_setWidth, BitVec.toInt_ofInt, BitVec.toNat_ofInt,
    Int.toNat_of_nonneg (Int.emod_nonneg _ hne), ← Int.emod_bmod, Int.emod_emod_of_dvd _ hd,
    Int.emod_bmod]

theorem setWidth_signExtend (h : w ≤ p) (v : BitVec w) : (v.signExtend p).setWidth w = v := by
  rw [BitVec.signExtend, setWidth_ofInt h, BitVec.ofInt_toInt]

theorem twosComplement_eq (h : w ≤ p) (v : BitVec w) : twosComplement p v = v := by
  rw [twosComplement]
  split
  · next hneg =>
    have hp : (v.signExtend p).msb = true := by
      rw [BitVec.msb_eq_toInt, BitVec.toInt_signExtend_of_le h]
      simpa [BitVec.slt_iff_toInt_lt] using hneg
    have habs : ~~~(v.signExtend p).abs + 1 = v.signExtend p := by
      rw [BitVec.abs, if_pos hp]
      exact (BitVec.neg_eq_not_add _).symm.trans BitVec.neg_neg
    rw [habs, setWidth_signExtend h]
  · rfl

theorem fromBits_eq (h : w ≤ p) (r : BitVec w × Unpacker) : fromBits p r = r := by
  obtain ⟨x, u⟩ := r
  have hmul : (-1 : BitVec p) * ((~~~x).setWidth p + 1) = -((~~~x).setWidth p + 1) := by
    rw [BitVec.neg_mul]
    exact congrArg Neg.neg (BitVec.one_mul _)
  have hone : (1 : BitVec p).setWidth w = 1 := BitVec.setWidth_ofNat_of_le h 1
  have hneg : (-((~~~x).setWidth p + 1)).setWidth w = x := by
    rw [BitVec.setWidth_neg_of_le h, BitVec.setWidth_add _ _ h,
      BitVec.setWidth_setWidth_of_le _ h, BitVec.setWidth_eq, hone]
    exact (congrArg Neg.neg (BitVec.neg_eq_not_add x).symm).trans BitVec.neg_neg
  rw [fromBits, hmul, hneg, ite_self]

theorem toInt_setWidth_of_le (h : w ≤ p) (hw : 0 < w) (v : BitVec p)
    (hlo : -2 ^ (w - 1) ≤ v.toInt) (hhi : v.toInt < 2 ^ (w - 1)) :
    (v.setWidth w).toInt = v.toInt := by
  conv_lhs => rw [← BitVec.ofInt_toInt (x := v), setWidth_ofInt h]
  exact BitVec.toInt_ofInt_eq_self hw hlo hhi

end Complement

section Encode

theorem encodeTagged_toInt {t : Tag} (v : BitVec (8 * t.intSize)) :
    encodeTagged t v.toInt = t.toByte :: bigEndian v.toNat t.intSize := by
  rw [encodeTagged, BitVec.ofInt_toInt]

theorem packInt8_eq (v : BitVec 8) : packInt8 v = encodeInt8 v.toInt := by
  rw [packInt8, twosComplement_eq (by decide), encodeInt8, BitVec.ofInt_toInt]
  have hmax : (Tag.max.toNat : ℤ) = 26 := rfl
  rw [hmax]
  split
  · refine Eq.trans ?_ (encodeTagged_toInt (t := .int8) v).symm
    simp [Tag.intSize, bigEndian]
  · rfl

theorem packInt16_eq (v : BitVec 16) : packInt16 v = encodeInt16 v.toInt := by
  have hne : v.signExtend 32 ≠ BitVec.intMin 32 := by
    intro h
    have h' := congrArg BitVec.toInt h
    rw [BitVec.toInt_signExtend_of_le (by decide)] at h'
    have hlo := BitVec.le_toInt v
    simp [BitVec.toInt_intMin] at h' hlo
    omega
  have hc : (v.signExtend 32).abs.slt ((BitVec.intMin 8).signExtend 32).abs = true ↔
      -128 < v.toInt ∧ v.toInt < 128 := by
    have hb : ((BitVec.intMin 8).signExtend 32).abs.toInt = 128 := by decide
    rw [BitVec.slt_iff_toInt_lt, hb, BitVec.toInt_abs_eq_natAbs_of_ne_intMin hne,
      BitVec.toInt_signExtend_of_le (by decide)]
    omega
  rw [packInt16, encodeInt16, twosComplement_eq (by decide)]
  by_cases h : -128 < v.toInt ∧ v.toInt < 128
  · rw [if_pos (hc.mpr h), if_pos h, packInt8_eq,
      toInt_setWidth_of_le (by decide) (by decide) v (by omega) (by omega)]
  · rw [if_neg (hc.not.mpr h), if_neg h]
    exact (encodeTagged_toInt (t := .int16) v).symm

theorem packInt32_eq {v : BitVec 32} (hne : v ≠ BitVec.intMin 32) :
    packInt32 v = encodeInt32 v.toInt := by
  have hc : v.abs.slt ((BitVec.intMin 16).signExtend 32).abs = true ↔
      -32768 < v.toInt ∧ v.toInt < 32768 := by
    have hb : ((BitVec.intMin 16).signExtend 32).abs.toInt = 32768 := by decide
    rw [BitVec.slt_iff_toInt_lt, hb, BitVec.toInt_abs_eq_natAbs_of_ne_intMin hne]
    omega
  rw [packInt32, encodeInt32, twosComplement_eq (by decide)]
  by_cases h : -32768 < v.toInt ∧ v.toInt < 32768
  · rw [if_pos (hc.mpr h), if_pos h, packInt16_eq,
      toInt_setWidth_of_le (by decide) (by decide) v (by omega) (by omega)]
  · rw [if_neg (hc.not.mpr h), if_neg h]
    exact (encodeTagged_toInt (t := .int32) v).symm

/-- The absolute value of the smallest 32-bit integer wraps to itself, below every bound. -/
theorem packInt32_intMin : packInt32 (BitVec.intMin 32) = [0] := by decide

/-- The bound of the widest encoder has wrapped, so it never narrows. -/
theorem packInt64_eq (v : BitVec 64) : packInt64 v = encodeTagged .int64 v.toInt := by
  have hb : ((BitVec.intMin 32).abs.signExtend 64).toInt = -2147483648 := by decide
  have hc : ¬ (v.abs.slt ((BitVec.intMin 32).abs.signExtend 64) = true ∧
      v ≠ BitVec.intMin 64) := by
    rintro ⟨hlt, hne⟩
    rw [BitVec.slt_iff_toInt_lt, hb, BitVec.toInt_abs_eq_natAbs_of_ne_intMin hne] at hlt
    omega
  rw [packInt64, if_neg hc, twosComplement_eq (by decide)]
  exact (encodeTagged_toInt (t := .int64) v).symm

end Encode

def Width.intTags : Width → List Tag
  | .w8 => [.int8]
  | .w16 => [.int16, .int8]
  | .w32 => [.int32, .int16, .int8]
  | .w64 => [.int64, .int32, .int16, .int8]

section Decode

variable {w : Width} {t : Tag} {b : Byte} {rest : List Byte} {i : ℤ}

theorem collect_ofInt {k : ℕ} :
    collect k (0 : BitVec (8 * k)) ⟨bigEndian (BitVec.ofInt (8 * k) i).toNat k ++ rest, 0, .none⟩ =
      (BitVec.ofInt (8 * k) i, of rest) := by
  have hlt : (BitVec.ofInt (8 * k) i).toNat < 256 ^ k := by
    have h := (BitVec.ofInt (8 * k) i).isLt
    rwa [Nat.pow_mul] at h
  rw [collect_bigEndian, Nat.mod_eq_of_lt hlt, BitVec.ofNat_toNat, BitVec.setWidth_eq, of]
  exact congrArg (·, _) BitVec.zero_or

theorem signExtend_ofInt {v w : ℕ} (hv : 0 < v) (hlo : -2 ^ (v - 1) ≤ i) (hhi : i < 2 ^ (v - 1)) :
    (BitVec.ofInt v i).signExtend w = BitVec.ofInt w i := by
  rw [BitVec.signExtend, BitVec.toInt_ofInt_eq_self hv hlo hhi]

theorem unpackInt8_tag : unpackInt8 (of (encodeTagged .int8 i ++ rest)) =
    (BitVec.ofInt 8 i, of rest) := by
  have hone : bigEndian (BitVec.ofInt 8 i).toNat 1 = [BitVec.ofInt 8 i] := by
    simp only [bigEndian, Nat.mul_zero, Nat.shiftRight_zero, BitVec.ofNat_toNat,
      BitVec.setWidth_eq]
  rw [encodeTagged]
  change unpackInt8 (of (_ :: bigEndian (BitVec.ofInt 8 i).toNat 1 ++ rest)) = _
  rw [hone]
  simp [unpackInt8, of]

theorem unpackInt16_tag : unpackInt16 (of (encodeTagged .int16 i ++ rest)) =
    (BitVec.ofInt 16 i, of rest) := by
  rw [encodeTagged, List.cons_append, of, unpackInt16, data_cons]
  dsimp only
  rw [if_pos rfl, increment_cons, fromBits_eq (by decide)]
  exact collect_ofInt (k := 2)

theorem unpackInt32_tag : unpackInt32 (of (encodeTagged .int32 i ++ rest)) =
    (BitVec.ofInt 32 i, of rest) := by
  rw [encodeTagged, List.cons_append, of, unpackInt32, data_cons]
  dsimp only
  rw [if_pos rfl, increment_cons, fromBits_eq (by decide)]
  exact collect_ofInt (k := 4)

theorem unpackInt64_tag : unpackInt64 (of (encodeTagged .int64 i ++ rest)) =
    (BitVec.ofInt 64 i, of rest) := by
  rw [encodeTagged, List.cons_append, of, unpackInt64, data_cons]
  dsimp only
  rw [if_pos rfl, increment_cons, fromBits_eq (by decide)]
  exact collect_ofInt (k := 8)

theorem unpackInt_tag (ht : t ∈ w.intTags) (hi : t.InRange i) (x : BitVec w.bits) :
    unpackInt w x (of (encodeTagged t i ++ rest)) = (BitVec.ofInt w.bits i, of rest) := by
  obtain ⟨hlo, hhi⟩ := hi
  have hwide : ∀ {v : ℕ} {r : BitVec v × Unpacker}, 0 < v → v = 8 * t.intSize →
      r = (BitVec.ofInt v i, of rest) →
      widenSigned r = (BitVec.ofInt w.bits i, of rest) := by
    rintro v r hv rfl rfl
    rw [widenSigned, signExtend_ofInt hv hlo hhi]
  cases w <;> simp only [Width.intTags, List.mem_cons, List.not_mem_nil, or_false] at ht
  case w8 =>
    subst ht
    exact unpackInt8_tag
  case w16 =>
    rcases ht with rfl | rfl
    · exact unpackInt16_tag
    · exact hwide (by decide) rfl unpackInt8_tag
  case w32 =>
    rcases ht with rfl | rfl | rfl
    · exact unpackInt32_tag
    · exact hwide (by decide) rfl unpackInt16_tag
    · exact hwide (by decide) rfl unpackInt8_tag
  case w64 =>
    rcases ht with rfl | rfl | rfl | rfl
    · exact unpackInt64_tag
    · exact hwide (by decide) rfl unpackInt32_tag
    · exact hwide (by decide) rfl unpackInt16_tag
    · exact hwide (by decide) rfl unpackInt8_tag

theorem unpackInt_raw (hb : ∀ t ∈ w.intTags, b ≠ t.toByte) (x : BitVec w.bits) :
    unpackInt w x (of (b :: rest)) = (b.setWidth w.bits, of rest) := by
  cases w <;> simp only [Width.intTags, List.forall_mem_cons, List.not_mem_nil,
    false_imp_iff, implies_true, and_true] at hb <;>
    simp [unpackInt, unpackInt8, unpackInt16, unpackInt32, unpackInt64, of, hb, widen,
      Width.bits]

theorem ofInt_ne_tag (hraw : ¬ (0 < i ∧ i < 26)) (hlo : -128 ≤ i) (hhi : i < 128) :
    ∀ t ∈ w.intTags, BitVec.ofInt 8 i ≠ t.toByte := by
  intro t ht h
  have htag : 0 < t.ctorIdx ∧ t.ctorIdx < 26 := by
    cases w <;> simp only [Width.intTags, List.mem_cons, List.not_mem_nil, or_false] at ht <;>
      rcases ht with rfl | rfl | rfl | rfl <;> decide
  have hn := congrArg BitVec.toNat h
  rw [Tag.toNat_toByte, BitVec.toNat_ofInt] at hn
  omega

/-- A raw byte is assigned as it is, so a wide decoder loses its sign. -/
theorem unpackInt_byte_iff (hraw : ¬ (0 < i ∧ i < 26)) (hlo : -128 ≤ i) (hhi : i < 128)
    (x : BitVec w.bits) :
    unpackInt w x (of (BitVec.ofInt 8 i :: rest)) = (BitVec.ofInt w.bits i, of rest) ↔
      0 ≤ i ∨ w = .w8 := by
  rw [unpackInt_raw (ofInt_ne_tag hraw hlo hhi), Prod.mk.injEq, and_iff_left rfl,
    ← BitVec.toNat_inj, BitVec.toNat_setWidth, BitVec.toNat_ofInt, BitVec.toNat_ofInt]
  cases w <;> simp only [Width.bits, reduceCtorEq, or_false, or_true, iff_true] <;> omega

end Decode

section RoundTrip

variable {w : Width} {rest : List Byte} {i : ℤ}

theorem unpackInt_encodeInt8_iff (hlo : -128 ≤ i) (hhi : i < 128) (x : BitVec w.bits) :
    unpackInt w x (of (encodeInt8 i ++ rest)) = (BitVec.ofInt w.bits i, of rest) ↔
      0 ≤ i ∨ w = .w8 := by
  rw [encodeInt8]
  split
  · next h =>
    have ht : Tag.int8 ∈ w.intTags := by cases w <;> decide
    exact iff_of_true (unpackInt_tag ht ⟨hlo, hhi⟩ x) (Or.inl (by omega))
  · next h => exact unpackInt_byte_iff h hlo hhi x

theorem unpackInt_encodeInt16_iff (hw : 16 ≤ w.bits) (hlo : -2 ^ 15 ≤ i) (hhi : i < 2 ^ 15)
    (x : BitVec w.bits) :
    unpackInt w x (of (encodeInt16 i ++ rest)) = (BitVec.ofInt w.bits i, of rest) ↔
      0 ≤ i ∨ i ≤ -128 := by
  have hne : w ≠ .w8 := by
    rintro rfl
    simp [Width.bits] at hw
  rw [encodeInt16]
  split
  · next h =>
    rw [unpackInt_encodeInt8_iff (by omega) h.2]
    simp only [hne, or_false]
    omega
  · next h =>
    have ht : Tag.int16 ∈ w.intTags := by cases w <;> first | decide | exact absurd rfl hne
    exact iff_of_true (unpackInt_tag ht ⟨hlo, hhi⟩ x) (by omega)

theorem unpackInt_encodeInt32_iff (hw : 32 ≤ w.bits) (hlo : -2 ^ 31 ≤ i) (hhi : i < 2 ^ 31)
    (x : BitVec w.bits) :
    unpackInt w x (of (encodeInt32 i ++ rest)) = (BitVec.ofInt w.bits i, of rest) ↔
      0 ≤ i ∨ i ≤ -128 := by
  rw [encodeInt32]
  split
  · next h => exact unpackInt_encodeInt16_iff (by omega) (by omega) (by omega) x
  · next h =>
    have ht : Tag.int32 ∈ w.intTags := by cases w <;> simp [Width.bits, Width.intTags] at hw ⊢
    exact iff_of_true (unpackInt_tag ht ⟨hlo, hhi⟩ x) (by omega)

end RoundTrip

def IntExact (w₁ w₂ : Width) (i : ℤ) : Prop :=
  0 ≤ i ∨ (w₁ = .w8 ∧ w₂ = .w8) ∨ w₁ = .w64 ∨
    (w₁ ≠ .w8 ∧ i ≤ -128 ∧ ¬ (w₁ = .w32 ∧ i = -2 ^ 31))

instance (w₁ w₂ : Width) (i : ℤ) : Decidable (IntExact w₁ w₂ i) := by
  unfold IntExact
  infer_instance

theorem unpackInt_intMin {w : Width} (hw : 32 ≤ w.bits) (x : BitVec w.bits) (rest : List Byte) :
    unpackInt w x (of (packInt32 (BitVec.intMin 32) ++ rest)) ≠
      (BitVec.ofInt w.bits (BitVec.intMin 32).toInt, of rest) := by
  rw [packInt32_intMin, List.singleton_append, unpackInt_raw (by cases w <;> decide)]
  cases w <;> simp [Width.bits] at hw ⊢ <;> decide

/-- A signed integer survives packing and unpacking at any wider width exactly when it
is not negative, stays one byte wide, is packed from the widest type, or is too far
below zero for one byte without being the smallest 32-bit integer. -/
theorem unpackInt_packInt_iff {w₁ w₂ : Width} (hw : w₁.bits ≤ w₂.bits) (v : BitVec w₁.bits)
    (x : BitVec w₂.bits) (rest : List Byte) :
    unpackInt w₂ x (of (packInt w₁ v ++ rest)) = (v.signExtend w₂.bits, of rest) ↔
      IntExact w₁ w₂ v.toInt := by
  have hlo := BitVec.le_toInt v
  have hhi := BitVec.toInt_lt (x := v)
  rw [BitVec.signExtend]
  cases w₁ with
  | w8 =>
    have hp : packInt .w8 v = encodeInt8 v.toInt := packInt8_eq v
    rw [hp, unpackInt_encodeInt8_iff hlo hhi]
    simp [IntExact]
  | w16 =>
    have hp : packInt .w16 v = encodeInt16 v.toInt := packInt16_eq v
    rw [hp, unpackInt_encodeInt16_iff hw hlo hhi]
    simp [IntExact]
  | w32 =>
    by_cases hmin : v = BitVec.intMin 32
    · subst hmin
      exact iff_of_false (unpackInt_intMin hw x rest) (by cases w₂ <;> decide)
    · have hp : packInt .w32 v = encodeInt32 v.toInt := packInt32_eq hmin
      have hne : v.toInt ≠ -2 ^ 31 := fun h => hmin (BitVec.eq_of_toInt_eq h)
      rw [hp, unpackInt_encodeInt32_iff hw hlo hhi]
      simp [IntExact]
      omega
  | w64 =>
    have ht : Tag.int64 ∈ w₂.intTags := by cases w₂ <;> simp [Width.bits, Width.intTags] at hw ⊢
    have hp : packInt .w64 v = encodeTagged .int64 v.toInt := packInt64_eq v
    rw [hp]
    exact iff_of_true (unpackInt_tag ht ⟨hlo, hhi⟩ x) (by simp [IntExact])

theorem unpackInt_packInt_sample :
    unpackInt .w64 0 (of (packInt .w16 (-300) ++ [7])) = (-300, of [7]) :=
  (unpackInt_packInt_iff (by decide) (-300) 0 [7]).mpr (by decide)

/-- Minus one is packed as the byte `0xff`, which a wide decoder takes for 255. -/
theorem unpackInt_packInt_minusOne :
    unpackInt .w16 0 (of (packInt .w16 (-1))) = (255, of []) := by decide

end Plain.Rpc
