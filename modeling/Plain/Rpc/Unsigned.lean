import Plain.Rpc.Integer

/-! # Round trips of unsigned integers

All unsigned encoders write the same bytes for the same number. A decoder returns
the number unless its first byte is read as a tag although it stands for itself,
or the cursor is moved once too often behind a 32-bit number.
-/

namespace Plain.Rpc

open Unpacker

/-- The bytes of an unsigned number, whatever type it is packed from. -/
def encodeUint (n : ℕ) : List Byte :=
  if n ≤ 0x7f then [BitVec.ofNat 8 n]
  else if n ≤ 0xff then [Tag.uint8.toByte, BitVec.ofNat 8 n]
  else if n ≤ 0xffff then Tag.uint16.toByte :: bigEndian n 2
  else if n ≤ 0xffffffff then Tag.uint32.toByte :: bigEndian n 4
  else Tag.uint64.toByte :: bigEndian n 8

theorem packUint8_eq (v : BitVec 8) : packUint8 v = encodeUint v.toNat := by
  have hv := v.isLt
  have hle : v ≤ 0x7f ↔ v.toNat ≤ 0x7f := BitVec.le_def
  rw [packUint8, encodeUint]
  by_cases h : v.toNat ≤ 0x7f
  · rw [if_pos (hle.mpr h), if_pos h, BitVec.ofNat_toNat, BitVec.setWidth_eq]
  · rw [if_neg (hle.not.mpr h), if_neg h, if_pos (by omega), BitVec.ofNat_toNat,
      BitVec.setWidth_eq]

theorem packWide_eq {w size narrowMax : ℕ} {tag : Tag} {narrow : BitVec w → List Byte}
    {v : BitVec w} (hnarrow : v.toNat ≤ narrowMax → narrow v = encodeUint v.toNat)
    (hwide : narrowMax < v.toNat → encodeUint v.toNat = tag.toByte :: bigEndian v.toNat size) :
    packWide tag size narrowMax narrow v = encodeUint v.toNat := by
  by_cases h : v.toNat > narrowMax
  · rw [packWide, if_pos h, hwide h]
  · rw [packWide, if_neg h, hnarrow (by omega)]

theorem packUint16_eq (v : BitVec 16) : packUint16 v = encodeUint v.toNat := by
  have hv := v.isLt
  apply packWide_eq
  · intro h
    rw [packUint8_eq, BitVec.toNat_setWidth, Nat.mod_eq_of_lt (by omega)]
  · intro h
    rw [encodeUint, if_neg (by omega), if_neg (by omega), if_pos (by omega)]

theorem packUint32_eq (v : BitVec 32) : packUint32 v = encodeUint v.toNat := by
  have hv := v.isLt
  apply packWide_eq
  · intro h
    rw [packUint16_eq, BitVec.toNat_setWidth, Nat.mod_eq_of_lt (by omega)]
  · intro h
    rw [encodeUint, if_neg (by omega), if_neg (by omega), if_neg (by omega), if_pos (by omega)]

theorem packUint64_eq (v : BitVec 64) : packUint64 v = encodeUint v.toNat := by
  apply packWide_eq
  · intro h
    rw [packUint32_eq, BitVec.toNat_setWidth, Nat.mod_eq_of_lt (by omega)]
  · intro h
    rw [encodeUint, if_neg (by omega), if_neg (by omega), if_neg (by omega), if_neg (by omega)]

theorem packUint_eq (w : Width) (v : BitVec w.bits) : packUint w v = encodeUint v.toNat := by
  cases w
  · exact packUint8_eq v
  · exact packUint16_eq v
  · exact packUint32_eq v
  · exact packUint64_eq v

section Consumed

variable {w k : ℕ} {u : Unpacker} {bs rest : List Byte}

theorem increment_inv {bytes : ℕ} (h : (u.increment bytes).error = .none) :
    bytes ≤ u.rest.length ∧ u.increment bytes = { u with rest := u.rest.drop bytes } := by
  by_cases hc : u.overrun = 0 ∧ bytes ≤ u.rest.length
  · exact ⟨hc.2, if_pos hc⟩
  · rw [increment, if_neg hc] at h
    simp at h

theorem next_inv (h : u.next.2.error = .none) :
    u.error = .none ∧ u.next.2.rest.length + 1 = u.rest.length := by
  obtain ⟨hle, heq⟩ := increment_inv h
  rw [next, heq] at h ⊢
  obtain ⟨_ | ⟨b, bs⟩, o, e⟩ := u
  · simp at hle
  · exact ⟨h, by simp⟩

theorem error_of_accumulate {value : BitVec w} (h : (accumulate k value u).2.error = .none) :
    u.error = .none := by
  induction k generalizing value u with
  | zero => exact h
  | succ k ih => exact (next_inv (ih h)).1

theorem length_accumulate {value : BitVec w} (h : (accumulate k value u).2.error = .none) :
    (accumulate k value u).2.rest.length + k = u.rest.length := by
  induction k generalizing value u with
  | zero => rfl
  | succ k ih =>
    have hk := ih h
    have hn := (next_inv (error_of_accumulate h)).2
    rw [accumulate]
    omega

theorem eq_of_advance (h : u.advance = of rest) : ∃ b, u = of (b :: rest) := by
  obtain ⟨_ | ⟨b, bs⟩, o, e⟩ := u
  · simp [advance, of] at h
  · simp only [advance, of, Unpacker.mk.injEq] at h
    obtain ⟨rfl, rfl, rfl⟩ := h
    exact ⟨b, rfl⟩

end Consumed

def Width.uintTags : Width → List Tag
  | .w8 => [.uint8]
  | .w16 => [.uint16, .uint8]
  | .w32 => [.uint32, .uint16, .uint8]
  | .w64 => [.uint64, .uint32, .uint16, .uint8]

def Tag.uintSize : Tag → ℕ
  | .uint8 => 1
  | .uint16 => 2
  | .uint32 => 4
  | .uint64 => 8
  | _ => 0

def readTagged (w : Width) (t : Tag) (u : Unpacker) : BitVec w.bits × Unpacker :=
  let r := accumulate t.uintSize 0 u
  (r.1, if w = .w64 ∧ t = .uint32 then r.2.advance else r.2)

section Decode

variable {w : Width} {t : Tag} {b : Byte} {bs rest : List Byte} {n : ℕ}

theorem unpackUint_tag (ht : t ∈ w.uintTags) :
    unpackUint w 0 (of (t.toByte :: bs)) = readTagged w t (of bs) := by
  cases w <;> simp only [Width.uintTags, List.mem_cons, List.not_mem_nil, or_false] at ht <;>
    rcases ht with rfl | rfl | rfl | rfl <;>
    simp [unpackUint, unpackUint8, unpackUint16, unpackUint32, unpackUint64, readTagged, of,
      Tag.uintSize, Tag.toByte, Tag.ctorIdx, widen, accumulate, Width.bits]

theorem unpackUint_raw (hb : ∀ t ∈ w.uintTags, b ≠ t.toByte) :
    unpackUint w 0 (of (b :: bs)) = (b.setWidth w.bits, of bs) := by
  cases w <;> simp only [Width.uintTags, List.forall_mem_cons, List.not_mem_nil,
    false_imp_iff, implies_true, and_true] at hb <;>
    simp [unpackUint, unpackUint8, unpackUint16, unpackUint32, unpackUint64, of, hb, widen,
      Width.bits]

theorem readTagged_ne (ht : t ∈ w.uintTags) {x : BitVec w.bits} :
    readTagged w t (of rest) ≠ (x, of rest) := by
  intro h
  have hpos : 0 < t.uintSize := by
    cases w <;> simp only [Width.uintTags, List.mem_cons, List.not_mem_nil, or_false] at ht <;>
      rcases ht with rfl | rfl | rfl | rfl <;> decide
  have h2 := congrArg Prod.snd h
  simp only [readTagged] at h2
  split at h2
  · obtain ⟨b, hb⟩ := eq_of_advance h2
    have hlen := length_accumulate (congrArg Unpacker.error hb)
    rw [hb] at hlen
    simp only [of, List.length_cons] at hlen
    omega
  · have hlen := length_accumulate (congrArg Unpacker.error h2)
    rw [h2] at hlen
    simp only [of] at hlen
    omega

theorem encodeUint_raw (h : n ≤ 0x7f) : encodeUint n = [BitVec.ofNat 8 n] := if_pos h

theorem encodeUint_tagged (hn : 0x7f < n) (hw : n < 2 ^ w.bits) :
    ∃ t ∈ w.uintTags, encodeUint n = t.toByte :: bigEndian n t.uintSize ∧
      n < 256 ^ t.uintSize ∧ (t = .uint32 ↔ 2 ^ 16 ≤ n ∧ n < 2 ^ 32) := by
  rw [encodeUint, if_neg (by omega)]
  split
  · next h =>
    refine ⟨.uint8, by cases w <;> decide, by simp [Tag.uintSize, bigEndian], ?_, ?_⟩
    all_goals simp [Tag.uintSize]; omega
  split
  · next h =>
    refine ⟨.uint16, ?_, rfl, ?_, ?_⟩
    · cases w <;> simp_all [Width.bits, Width.uintTags]; omega
    all_goals simp [Tag.uintSize]; omega
  split
  · next h =>
    refine ⟨.uint32, ?_, rfl, ?_, ?_⟩
    · cases w <;> simp_all [Width.bits, Width.uintTags] <;> omega
    all_goals simp [Tag.uintSize]; omega
  · refine ⟨.uint64, ?_, rfl, ?_, ?_⟩
    · cases w <;> simp_all [Width.bits, Width.uintTags] <;> omega
    · cases w <;> simp_all [Width.bits, Tag.uintSize] <;> omega
    · simp; omega

theorem ofNat_eq_toByte (h : n < 256) : BitVec.ofNat 8 n = t.toByte ↔ n = t.ctorIdx := by
  rw [← BitVec.toNat_inj, Tag.toNat_toByte, BitVec.toNat_ofNat, Nat.mod_eq_of_lt h]

theorem advance_ne : (of rest).advance ≠ of rest := by
  intro h
  obtain ⟨b, hb⟩ := eq_of_advance h
  have hlen := congrArg (fun u => u.rest.length) hb
  simp [of] at hlen

theorem readTagged_bigEndian (hn : n < 256 ^ t.uintSize) :
    readTagged w t (of (bigEndian n t.uintSize ++ rest)) =
      (BitVec.ofNat w.bits n,
        if w = .w64 ∧ t = .uint32 then (of rest).advance else of rest) := by
  rw [readTagged, of, accumulate_bigEndian, Nat.mod_eq_of_lt hn]
  simp [of]

end Decode

/-- The numbers an unsigned decoder gets back: no tag it tests for, and for the widest
one nothing that is sent in 32 bits. -/
def UintExact (w : Width) (n : ℕ) : Prop :=
  (∀ t ∈ w.uintTags, n ≠ t.ctorIdx) ∧ ¬ (w = .w64 ∧ 2 ^ 16 ≤ n ∧ n < 2 ^ 32)

instance (w : Width) (n : ℕ) : Decidable (UintExact w n) := by
  unfold UintExact
  infer_instance

theorem unpackUint_encodeUint_iff {w : Width} {n : ℕ} (hn : n < 2 ^ w.bits) (rest : List Byte) :
    unpackUint w 0 (of (encodeUint n ++ rest)) = (BitVec.ofNat w.bits n, of rest) ↔
      UintExact w n := by
  rcases Nat.lt_or_ge 0x7f n with hbig | hsmall
  · obtain ⟨t, ht, henc, hlt, h32⟩ := encodeUint_tagged hbig hn
    have htags : ∀ t ∈ w.uintTags, n ≠ t.ctorIdx := by
      intro t _ h
      have : t.ctorIdx < 26 := by cases t <;> decide
      omega
    rw [henc, List.cons_append, unpackUint_tag ht, readTagged_bigEndian hlt, UintExact, ← h32,
      and_iff_right htags]
    split
    · next hc => simp [hc, advance_ne]
    · next hc => simp [hc]
  · rw [encodeUint_raw hsmall, List.singleton_append]
    by_cases hb : ∀ t ∈ w.uintTags, n ≠ t.ctorIdx
    · rw [unpackUint_raw fun t ht => (ofNat_eq_toByte (by omega)).not.mpr (hb t ht)]
      refine iff_of_true ?_ ⟨hb, by omega⟩
      rw [BitVec.setWidth_ofNat_of_le_of_lt (by cases w <;> decide) (by omega)]
    · refine iff_of_false ?_ fun h => hb h.1
      push Not at hb
      obtain ⟨t, ht, rfl⟩ := hb
      rw [(ofNat_eq_toByte (by omega)).mpr rfl, unpackUint_tag ht]
      exact readTagged_ne ht

/-- An unsigned integer survives packing and unpacking at any wider width exactly
when it is neither a tag of the decoder nor, for the widest decoder, sent in 32 bits. -/
theorem unpackUint_packUint_iff {w₁ w₂ : Width} (hw : w₁.bits ≤ w₂.bits) (v : BitVec w₁.bits)
    (rest : List Byte) :
    unpackUint w₂ 0 (of (packUint w₁ v ++ rest)) = (v.setWidth w₂.bits, of rest) ↔
      UintExact w₂ v.toNat := by
  have hlt : v.toNat < 2 ^ w₂.bits :=
    lt_of_lt_of_le v.isLt (Nat.pow_le_pow_right (by decide) hw)
  rw [packUint_eq, ← unpackUint_encodeUint_iff hlt rest, BitVec.ofNat_toNat]

theorem unpackUint_packUint_sample :
    unpackUint .w64 0 (of (packUint .w16 0xabcd ++ [7])) = (0xabcd, of [7]) :=
  (unpackUint_packUint_iff (by decide) 0xabcd [7]).mpr (by decide)

/-- The number two is packed as the byte two, which is read as a tag. -/
theorem unpackUint_packUint_two :
    unpackUint .w8 0 (of (packUint .w8 2)) ≠ (2, of []) := by decide

end Plain.Rpc
