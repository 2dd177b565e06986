import Plain.Rpc.Shape
import Plain.Rpc.Signed

/-! # Truncated encodings

Unpacking a packed value takes exactly the bytes written for it. As reads that raise no
error do the same in front of a longer input, a strict prefix of an encoding raises one.
-/

namespace Plain.Rpc

open Unpacker

section Consumed

variable {w : Width} {rest : List Byte} {i : ℤ}

theorem unpackInt_encodeInt8_rest (hlo : -128 ≤ i) (hhi : i < 128) (x : BitVec w.bits) :
    (unpackInt w x (of (encodeInt8 i ++ rest))).2 = of rest := by
  rw [encodeInt8]
  split
  · have ht : Tag.int8 ∈ w.intTags := by cases w <;> decide
    rw [unpackInt_tag ht ⟨hlo, hhi⟩]
  · next hraw => rw [List.singleton_append, unpackInt_raw (ofInt_ne_tag hraw hlo hhi)]

theorem unpackInt_encodeInt16_rest (ht : Tag.int16 ∈ w.intTags) (hlo : -2 ^ 15 ≤ i)
    (hhi : i < 2 ^ 15) (x : BitVec w.bits) :
    (unpackInt w x (of (encodeInt16 i ++ rest))).2 = of rest := by
  rw [encodeInt16]
  split
  · next h => exact unpackInt_encodeInt8_rest (by omega) h.2 x
  · rw [unpackInt_tag ht ⟨hlo, hhi⟩]

/-- A signed decoder takes the bytes of its encoder, even where it gets the sign wrong. -/
theorem unpackInt_packInt_rest (v x : BitVec w.bits) :
    (unpackInt w x (of (packInt w v ++ rest))).2 = of rest := by
  have hlo := BitVec.le_toInt v
  have hhi := BitVec.toInt_lt (x := v)
  cases w with
  | w8 =>
    have hp : packInt .w8 v = encodeInt8 v.toInt := packInt8_eq v
    rw [hp, unpackInt_encodeInt8_rest hlo hhi]
  | w16 =>
    have hp : packInt .w16 v = encodeInt16 v.toInt := packInt16_eq v
    rw [hp, unpackInt_encodeInt16_rest (by decide) hlo hhi]
  | w32 =>
    by_cases hmin : v = BitVec.intMin 32
    · have hp : packInt .w32 v = [0] := by rw [hmin]; exact packInt32_intMin
      rw [hp, List.singleton_append, unpackInt_raw (by decide)]
    · have hp : packInt .w32 v = encodeInt32 v.toInt := packInt32_eq hmin
      rw [hp, encodeInt32]
      split
      · exact unpackInt_encodeInt16_rest (by decide) (by omega) (by omega) x
      · rw [unpackInt_tag (t := .int32) (by decide) ⟨hlo, hhi⟩]
  | w64 =>
    have hp : packInt .w64 v = encodeTagged .int64 v.toInt := packInt64_eq v
    rw [hp, unpackInt_tag (t := .int64) (by decide) ⟨hlo, hhi⟩]

theorem iterate_flatMap {ε : Type} {f : Unpacker → Unpacker} {pack : ε → List Byte} {xs : List ε}
    (h : ∀ x ∈ xs, ∀ rest, f (of (pack x ++ rest)) = of rest) :
    Nat.iterate f xs.length (of (xs.flatMap pack ++ rest)) = of rest := by
  induction xs with
  | nil => rfl
  | cons x xs ih =>
    have hrest := ih fun y hy => h y (List.mem_cons_of_mem x hy)
    rw [List.length_cons, List.flatMap_cons, List.append_assoc]
    exact (congrArg (Nat.iterate f xs.length) (h x List.mem_cons_self _)).trans hrest

theorem iterate_packSize {ε : Type} (hd : Header) {f : Unpacker → Unpacker}
    {pack : ε → List Byte} {xs : List ε} {header : List Byte}
    (hheader : packSize hd xs.length = some header) (hn : xs.length < 2 ^ 32 - 1)
    (h : ∀ x ∈ xs, ∀ rest, f (of (pack x ++ rest)) = of rest) :
    Nat.iterate f (unpackSize hd (of (header ++ xs.flatMap pack ++ rest))).1.toNat
      (unpackSize hd (of (header ++ xs.flatMap pack ++ rest))).2 = of rest := by
  rw [List.append_assoc, unpackSize_packSize hd hheader]
  dsimp only
  rw [BitVec.toNat_ofNat, Nat.mod_eq_of_lt (by omega), iterate_flatMap h]

/-- Unpacking takes exactly what was packed. -/
theorem run_pack {α : Type} {s : Shape} {c : Codec α} {P : α → Prop} (h : Describes s c P)
    (hu : s.unsignedFree = true) {x : α} (hx : P x) (rest : List Byte) :
    s.run (of (c.pack x ++ rest)) = of rest := by
  induction h generalizing rest with
  | nullptr => rfl
  | bool => cases x <;> rfl
  | int w => exact unpackInt_packInt_rest x 0
  | uint w => simp [Shape.unsignedFree] at hu
  | string => exact congrArg Prod.snd (unpackString_packString hx [])
  | bytes => exact congrArg Prod.snd (unpackBytes_packBytes hx [])
  | @array _ s c _ _ ih =>
    obtain ⟨header, hheader⟩ := packSize_isSome .array hx.1
    have hp : c.array.pack x = header ++ x.flatMap c.pack := by
      change c.packArray x = _
      rw [Codec.packArray, hheader]
    rw [hp]
    exact iterate_packSize .array hheader hx.1 fun y hy => ih hu (hx.2 y hy)
  | @map _ _ _ s t k v _ _ it _ _ ihk ihv =>
    have hcard : x.entries.card = (it.entries x).length := by
      rw [← it.coe_entries, Multiset.coe_card]
    obtain ⟨hn, hall⟩ := hx
    rw [hcard] at hn
    obtain ⟨header, hheader⟩ := packSize_isSome .map hn
    have hp : (Codec.map it k v).pack x =
        header ++ (it.entries x).flatMap fun e => k.pack e.1 ++ v.pack e.2 := by
      change Codec.packMap it k v x = _
      rw [Codec.packMap, hcard, hheader]
    simp only [Shape.unsignedFree, Bool.and_eq_true] at hu
    rw [hp]
    refine iterate_packSize .map hheader hn fun e he rest => ?_
    obtain ⟨hR, hQ⟩ := hall e (by rwa [← it.coe_entries, Multiset.mem_coe])
    rw [List.append_assoc, ihk hu.1 hR, ihv hu.2 hQ]
  | tupleNil => rfl
  | @tupleCons _ _ s t c cs _ _ _ _ ih ihs =>
    simp only [Shape.unsignedFree, Bool.and_eq_true] at hu
    change t.run (s.run (of (c.pack x.1 ++ cs.pack x.2 ++ rest))) = _
    rw [List.append_assoc, ih hu.1 hx.1, ihs hu.2 hx.2]
  | @object _ s c _ _ ih =>
    have hfields := ih hu hx.2 []
    rw [List.append_nil] at hfields
    have hp : c.object.pack x = packBytes (c.pack x.fields) := rfl
    rw [hp, Shape.run_object (unpackBytes_packBytes hx.1 []), hfields]
    rfl

end Consumed

/-- Every strict prefix of the encoding of a value, whose sizes the headers can announce,
is unpacked with an error. -/
theorem truncated_outOfRange {α : Type} {s : Shape} {c : Codec α} {P : α → Prop}
    (h : Describes s c P) (hobj : s.objectFree = true) (hu : s.unsignedFree = true) {x : α}
    (hx : P x) {p : List Byte} (hp : p <+: c.pack x) (hne : p ≠ c.pack x) :
    ∃ y u, c.unpack c.init (of p) = some (y, u) ∧ u.error = .outOfRange := by
  obtain ⟨y, hy⟩ := unpack_run h c.init (of p)
  refine ⟨y, s.run (of p), hy, ?_⟩
  have hreads : Reads False True fun u => ((), s.run u) :=
    reads_run hobj False.elim fun _ => hu
  obtain ⟨_, r', o', failed, hl⟩ := hreads p 0 (Or.inl rfl)
  have hrun := congrArg Prod.snd (hl.eq .none)
  cases failed with
  | true =>
    change s.run (of p) = _ at hrun
    rw [hrun]
    rfl
  | false =>
    -- The same read of the whole encoding would leave the missing bytes behind.
    obtain ⟨q, hq⟩ := hp
    have hmore := congrArg Prod.snd (hl.more rfl (hl.still trivial) q .none)
    have hall := run_pack h hu hx []
    rw [List.append_nil, ← hq] at hall
    have hnil : r' ++ q = [] := congrArg Unpacker.rest (hmore.symm.trans hall)
    obtain ⟨-, rfl⟩ := List.append_eq_nil_iff.mp hnil
    rw [List.append_nil] at hq
    exact absurd hq hne

/-- A list of pairs of a number and a string, without its last byte. -/
theorem truncated_outOfRange_pairs :
    [145, 3, 1, 44, 162, 65] <+:
        ((Codec.int .w16).tupleCons (Codec.string.tupleCons .tupleNil)).array.pack
          [(300, [65, 66], ())] ∧
      ∃ y u, ((Codec.int .w16).tupleCons (Codec.string.tupleCons .tupleNil)).array.unpack []
        (of [145, 3, 1, 44, 162, 65]) = some (y, u) ∧ u.error = .outOfRange :=
  ⟨by decide, truncated_outOfRange
    (.array (.tupleCons (.int .w16) (.tupleCons .string .tupleNil))) rfl rfl
    (x := [(300, [65, 66], ())]) (by simp) (by decide) (by decide)⟩

theorem pack_tupleCons_full {α β : Type} (c : Codec α) (cs : Codec β) {xs : List α}
    (hn : 2 ^ 32 - 1 ≤ xs.length) (y : β) : (c.array.tupleCons cs).pack (xs, y) = cs.pack y := by
  change c.packArray xs ++ cs.pack y = cs.pack y
  rw [Codec.packArray_full c hn, List.nil_append]

/-- A vector of `2 ^ 32 - 1` null pointers is packed into nothing, so that two bytes of
the string behind it are unpacked as an empty vector and an empty string. -/
theorem truncation_undetected :
    [0xb0, 0xa0] <+: (Codec.nullptr.array.tupleCons (Codec.string.tupleCons .tupleNil)).pack
        (List.replicate (2 ^ 32 - 1) (), 0xa0 :: List.replicate 15 0, ()) ∧
      [0xb0, 0xa0] ≠ (Codec.nullptr.array.tupleCons (Codec.string.tupleCons .tupleNil)).pack
        (List.replicate (2 ^ 32 - 1) (), 0xa0 :: List.replicate 15 0, ()) ∧
      (Codec.nullptr.array.tupleCons (Codec.string.tupleCons .tupleNil)).unpack ([], [], ())
        (of [0xb0, 0xa0]) = some (([], [], ()), of []) := by
  rw [pack_tupleCons_full _ _ (by rw [List.length_replicate])]
  exact ⟨by decide, by decide, rfl⟩

end Plain.Rpc
