import Plain.Rpc.Codec

/-! # Round trips of composed types

A codec round-trips when unpacking what it packed gives the value back and leaves
the cursor behind it. Every constructor of composed types keeps this property for
the values its headers can announce.
-/

namespace Plain.Rpc

open Unpacker

/-- Unpacking a packed value of the given set into a new variable gives the value,
without an error, and leaves what follows it. -/
def Codec.RoundTrips {α : Type} (c : Codec α) (P : α → Prop) : Prop :=
  ∀ x, P x → ∀ rest, c.unpack c.init (of (c.pack x ++ rest)) = some (x, of rest)

section Sizes

variable {rest : List Byte} {n k : ℕ}

theorem accumulate_size (hn : n < 256 ^ k) (rest : List Byte) :
    accumulate k (0 : BitVec 64) (of (bigEndian n k ++ rest)) =
      (BitVec.ofNat 64 n, of rest) := by
  rw [of, accumulate_bigEndian, Nat.mod_eq_of_lt hn]
  simp [of]

theorem unpackSize_packSize (h : Header) {header : List Byte} (hp : packSize h n = some header) :
    unpackSize h (of (header ++ rest)) = (BitVec.ofNat 64 n, of rest) := by
  rw [packSize] at hp
  split at hp
  · next hlt =>
    obtain rfl := Option.some.inj hp
    obtain ⟨h32, h16, hmask⟩ := h.mask_spec ⟨n, hlt⟩
    rw [List.singleton_append, of, unpackSize, data_cons]
    dsimp only
    rw [if_neg h32, if_neg h16, increment_cons, hmask,
      BitVec.setWidth_ofNat_of_le_of_lt (by decide) (by omega)]
    rfl
  split at hp
  · next hlt =>
    obtain rfl := Option.some.inj hp
    rw [List.cons_append, of, unpackSize, data_cons]
    dsimp only
    rw [if_neg h.tags_ne, if_pos rfl, increment_cons]
    exact accumulate_size (by omega) rest
  split at hp
  · next hlt =>
    obtain rfl := Option.some.inj hp
    rw [List.cons_append, of, unpackSize, data_cons]
    dsimp only
    rw [if_pos rfl, increment_cons]
    exact accumulate_size (by omega) rest
  · simp at hp

theorem packSize_isSome (h : Header) (hn : n < 2 ^ 32 - 1) :
    ∃ header, packSize h n = some header := by
  rw [packSize]
  split
  · exact ⟨_, rfl⟩
  split
  · exact ⟨_, rfl⟩
  · exact ⟨_, if_pos hn⟩

theorem takeBytes_append (value bs : List Byte) :
    takeBytes bs.length value (of (bs ++ rest)) = (bs, of rest) := by
  rw [takeBytes, of, increment_append, if_pos ⟨rfl, by simp⟩, List.take_left]
  rfl

theorem takeBytes_accumulate {bs : List Byte} (hk : k ≤ 4) (hn : bs.length < 256 ^ k)
    (value : List Byte) :
    takeBytes (accumulate k (0 : BitVec 64) (of (bigEndian bs.length k ++ (bs ++ rest)))).1.toNat
        value (accumulate k (0 : BitVec 64) (of (bigEndian bs.length k ++ (bs ++ rest)))).2 =
      (bs, of rest) := by
  have hpow := Nat.pow_le_pow_right (show 0 < 256 by decide) hk
  rw [accumulate_size hn]
  dsimp only
  rw [BitVec.toNat_ofNat, Nat.mod_eq_of_lt (by omega), takeBytes_append]

theorem unpackBytes_tag {t : Tag} {bs : List Byte}
    (htk : (t, k) ∈ [(Tag.bin8, 1), (.bin16, 2), (.bin32, 4)]) (hn : bs.length < 256 ^ k)
    (value : List Byte) :
    unpackBytes value (of (t.toByte :: (bigEndian bs.length k ++ (bs ++ rest)))) =
      (bs, of rest) := by
  rw [of, unpackBytes, data_cons]
  dsimp only
  rw [increment_cons, ← of]
  simp only [List.mem_cons, Prod.mk.injEq, List.not_mem_nil, or_false] at htk
  rcases htk with ⟨rfl, rfl⟩ | ⟨rfl, rfl⟩ | ⟨rfl, rfl⟩
  · rw [if_neg (by decide), if_neg (by decide)]
    exact takeBytes_accumulate (by decide) hn value
  · rw [if_neg (by decide), if_pos rfl]
    exact takeBytes_accumulate (by decide) hn value
  · rw [if_pos rfl]
    exact takeBytes_accumulate (by decide) hn value

theorem unpackBytes_packBytes {bs : List Byte} (hn : bs.length < 2 ^ 32 - 1) (value : List Byte) :
    unpackBytes value (of (packBytes bs ++ rest)) = (bs, of rest) := by
  rw [packBytes]
  split
  · have hone : [BitVec.ofNat 8 bs.length] = bigEndian bs.length 1 := by simp [bigEndian]
    rw [← List.singleton_append (l := bs), hone, List.cons_append, List.append_assoc]
    exact unpackBytes_tag (by simp) (by omega) value
  split
  · rw [List.cons_append, List.cons_append, List.append_assoc]
    exact unpackBytes_tag (by simp) (by omega) value
  · rw [if_pos (show bs.length < 0xffffffff by omega), List.cons_append, List.cons_append,
      List.append_assoc]
    exact unpackBytes_tag (by simp) (by omega) value

theorem unpackString_tag {t : Tag} {bs : List Byte}
    (htk : (t, k) ∈ [(Tag.str8, 1), (.str16, 2), (.str32, 4)]) (hn : bs.length < 256 ^ k)
    (value : List Byte) :
    unpackString value (of (t.toByte :: (bigEndian bs.length k ++ (bs ++ rest)))) =
      (bs, of rest) := by
  rw [of, unpackString, data_cons]
  dsimp only
  rw [increment_cons, ← of]
  simp only [List.mem_cons, Prod.mk.injEq, List.not_mem_nil, or_false] at htk
  rcases htk with ⟨rfl, rfl⟩ | ⟨rfl, rfl⟩ | ⟨rfl, rfl⟩
  · rw [if_neg (by decide), if_neg (by decide), if_pos rfl]
    exact takeBytes_accumulate (by decide) hn value
  · rw [if_neg (by decide), if_pos rfl]
    exact takeBytes_accumulate (by decide) hn value
  · rw [if_pos rfl]
    exact takeBytes_accumulate (by decide) hn value

theorem shortString_spec : ∀ n : Fin 32,
    BitVec.ofNat 8 n ||| 0b10100000 ∉ [Tag.str32.toByte, Tag.str16.toByte, Tag.str8.toByte] ∧
      ((BitVec.ofNat 8 n ||| 0b10100000) &&& 0b00011111).toNat = n := by decide

theorem unpackString_packString {bs : List Byte} (hn : bs.length < 2 ^ 32 - 1)
    (value : List Byte) :
    unpackString value (of (packString bs ++ rest)) = (bs, of rest) := by
  rw [packString]
  split
  · next hlt =>
    obtain ⟨htags, hlen⟩ := shortString_spec ⟨bs.length, hlt⟩
    simp only [List.mem_cons, List.not_mem_nil, or_false, not_or] at htags
    rw [List.cons_append, of, unpackString, data_cons]
    dsimp only at hlen ⊢
    rw [if_neg htags.1, if_neg htags.2.1, if_neg htags.2.2, increment_cons, ← of]
    dsimp only
    rw [BitVec.toNat_setWidth, hlen, Nat.mod_eq_of_lt (by omega), takeBytes_append]
  split
  · have hone : [BitVec.ofNat 8 bs.length] = bigEndian bs.length 1 := by simp [bigEndian]
    rw [← List.singleton_append (l := bs), hone, List.cons_append, List.append_assoc]
    exact unpackString_tag (by simp) (by omega) value
  split
  · rw [List.cons_append, List.cons_append, List.append_assoc]
    exact unpackString_tag (by simp) (by omega) value
  · rw [if_pos (show bs.length < 0xffffffff by omega), List.cons_append, List.cons_append,
      List.append_assoc]
    exact unpackString_tag (by simp) (by omega) value

end Sizes

/-- Strings and byte vectors of every length below `2 ^ 32 - 1` are unpacked over any value
as they were packed, without an error, and what follows them is left. -/
theorem strings_roundTrip (str vec value rest : List Byte) (hstr : str.length < 2 ^ 32 - 1)
    (hvec : vec.length < 2 ^ 32 - 1) :
    Codec.string.unpack value (of (Codec.string.pack str ++ rest)) = some (str, of rest) ∧
      Codec.bytes.unpack value (of (Codec.bytes.pack vec ++ rest)) = some (vec, of rest) := by
  constructor
  · exact congrArg some (unpackString_packString hstr value)
  · exact congrArg some (unpackBytes_packBytes hvec value)

/-- A string one longer than the short ones, and an empty vector. -/
theorem strings_roundTrip_tagged :
    Codec.string.pack (List.replicate 32 0x61) =
        [Tag.str8.toByte, 32] ++ List.replicate 32 0x61 ∧
      Codec.string.unpack [1] (of (Codec.string.pack (List.replicate 32 0x61) ++ [7])) =
        some (List.replicate 32 0x61, of [7]) ∧
      Codec.bytes.unpack [1] (of (Codec.bytes.pack [] ++ [7])) = some ([], of [7]) := by
  constructor
  · decide
  · exact strings_roundTrip (List.replicate 32 0x61) [] [1] [7] (by decide) (by decide)

section Elements

variable {ε σ : Type} {rest : List Byte}

theorem unpackMany_flatMap {unpack : Unpacker → Option (ε × Unpacker)} {store : σ → ε → σ}
    {pack : ε → List Byte} {xs : List ε}
    (h : ∀ x ∈ xs, ∀ rest, unpack (of (pack x ++ rest)) = some (x, of rest)) (s : σ) :
    unpackMany unpack store xs.length s (of (xs.flatMap pack ++ rest)) =
      some (xs.foldl store s, of rest) := by
  induction xs generalizing s with
  | nil => rfl
  | cons x xs ih =>
    have hx := h x List.mem_cons_self (xs.flatMap pack ++ rest)
    rw [List.length_cons, List.flatMap_cons, List.append_assoc, unpackMany, hx]
    exact ih (fun y hy => h y (List.mem_cons_of_mem x hy)) (store s x)

theorem foldl_append_singleton (xs ys : List ε) :
    xs.foldl (fun array val => array ++ [val]) ys = ys ++ xs := by
  induction xs generalizing ys with
  | nil => simp
  | cons x xs ih => rw [List.foldl_cons, ih, List.append_assoc, List.singleton_append]

theorem entries_foldl_insert {κ β : Type} [DecidableEq κ] {l : List ((_ : κ) × β)}
    (hl : l.NodupKeys) (m : Finmap fun _ : κ => β) (hm : ∀ e ∈ l, e.1 ∉ m) :
    (l.foldl (fun m e => m.insert e.1 e.2) m).entries = (l : Multiset _) + m.entries := by
  induction l generalizing m with
  | nil => simp
  | cons e l ih =>
    obtain ⟨hnew, hl⟩ := List.nodupKeys_cons.mp hl
    have hne (e' : (_ : κ) × β) (he' : e' ∈ l) : e'.1 ∉ m.insert e.1 e.2 := by
      rw [Finmap.mem_insert, not_or]
      refine ⟨fun heq => hnew ?_, hm e' (List.mem_cons_of_mem e he')⟩
      exact heq ▸ List.mem_keys_of_mem he'
    rw [List.foldl_cons, ih hl _ hne, Finmap.entries_insert_of_notMem (hm e List.mem_cons_self),
      ← Multiset.cons_coe, Multiset.cons_add, Multiset.add_cons]

end Elements

namespace Codec

variable {α β κ φ : Type} {P : α → Prop} {Q : β → Prop}

theorem roundTrips_array {c : Codec α} (hc : c.RoundTrips P) :
    c.array.RoundTrips fun xs => xs.length < 2 ^ 32 - 1 ∧ ∀ x ∈ xs, P x := by
  rintro xs ⟨hlen, hP⟩ rest
  obtain ⟨header, hheader⟩ := packSize_isSome .array hlen
  change unpackArray c [] (of (packArray c xs ++ rest)) = _
  rw [packArray, hheader]
  dsimp only
  rw [List.append_assoc, unpackArray, unpackSize_packSize _ hheader]
  dsimp only
  rw [BitVec.toNat_ofNat, Nat.mod_eq_of_lt (by omega),
    unpackMany_flatMap (fun x hx => hc x (hP x hx)), foldl_append_singleton, List.nil_append]

theorem copyTo_toList {n : ℕ} (x array : Vector α n) : copyTo x.toList array = some x := by
  rw [copyTo, if_pos (by simp)]
  congr 1
  ext i hi
  simp

theorem roundTrips_stdarray {c : Codec α} (hc : c.RoundTrips P) {n : ℕ} (hn : n < 2 ^ 32 - 1) :
    (c.stdarray n).RoundTrips fun x => ∀ y ∈ x.toList, P y := by
  intro x hP rest
  have harray := roundTrips_array hc x.toList ⟨by simpa using hn, hP⟩ rest
  change unpackStdarray c _ (of (packArray c x.toList ++ rest)) = _
  change unpackArray c [] (of (packArray c x.toList ++ rest)) = _ at harray
  rw [unpackStdarray, harray]
  simp only [Option.bind_eq_bind, Option.bind_some, copyTo_toList]

theorem foldl_insert_entries [DecidableEq κ] (it : Iteration κ β) (m : Finmap fun _ : κ => β) :
    (it.entries m).foldl (fun m e => m.insert e.1 e.2) ∅ = m := by
  have hnodup : (it.entries m).NodupKeys := by
    rw [← Multiset.coe_nodupKeys, it.coe_entries]
    exact m.nodupKeys
  apply Finmap.ext
  rw [entries_foldl_insert hnodup ∅ fun _ _ => Finmap.notMem_empty, it.coe_entries]
  exact add_zero _

theorem roundTrips_map [DecidableEq κ] {R : κ → Prop} (it : Iteration κ β) {k : Codec κ}
    {v : Codec β} (hk : k.RoundTrips R) (hv : v.RoundTrips Q) :
    (map it k v).RoundTrips fun m =>
      m.entries.card < 2 ^ 32 - 1 ∧ ∀ e ∈ m.entries, R e.1 ∧ Q e.2 := by
  rintro m ⟨hlen, hRQ⟩ rest
  obtain ⟨header, hheader⟩ := packSize_isSome .map hlen
  have hcard : m.entries.card = (it.entries m).length := by
    rw [← it.coe_entries, Multiset.coe_card]
  have hentry (e : (_ : κ) × β) (he : e ∈ it.entries m) (rest : List Byte) :
      unpackEntry k v (of (k.pack e.1 ++ v.pack e.2 ++ rest)) = some (e, of rest) := by
    obtain ⟨hR, hQ⟩ := hRQ e (by rwa [← it.coe_entries, Multiset.mem_coe])
    rw [List.append_assoc, unpackEntry, hk _ hR]
    simp only [Option.bind_eq_bind, Option.bind_some]
    rw [hv _ hQ]
    rfl
  change unpackMap k v ∅ (of (packMap it k v m ++ rest)) = _
  rw [packMap, hheader]
  dsimp only
  rw [List.append_assoc, unpackMap, unpackSize_packSize _ hheader]
  dsimp only
  rw [BitVec.toNat_ofNat, Nat.mod_eq_of_lt (by omega), hcard, unpackMany_flatMap hentry,
    foldl_insert_entries]

theorem roundTrips_tupleNil : tupleNil.RoundTrips fun _ => True := fun _ _ _ => rfl

theorem roundTrips_tupleCons {c : Codec α} {cs : Codec β} (hc : c.RoundTrips P)
    (hcs : cs.RoundTrips Q) : (tupleCons c cs).RoundTrips fun x => P x.1 ∧ Q x.2 := by
  rintro ⟨x, y⟩ ⟨hx, hy⟩ rest
  change (c.unpack c.init (of (c.pack x ++ cs.pack y ++ rest))).bind _ = _
  rw [List.append_assoc, hc x hx, Option.bind_some]
  change (cs.unpack cs.init (of (cs.pack y ++ rest))).bind _ = _
  rw [hcs y hy]
  rfl

theorem roundTrips_object {c : Codec α} (hc : c.RoundTrips P) :
    (object c).RoundTrips fun x => (c.pack x.fields).length < 2 ^ 32 - 1 ∧ P x.fields := by
  rintro ⟨x⟩ ⟨hlen, hx⟩ rest
  have hfields := hc x hx []
  rw [List.append_nil] at hfields
  simp only [object, unpackBytes_packBytes hlen, hfields, Option.bind_eq_bind, Option.bind_some]
  rfl

/-- The codecs the library derives from element codecs, each with the values whose
sizes its headers can announce. -/
inductive Derived : {α : Type} → Codec α → (α → Prop) → Prop
  | element {α : Type} {c : Codec α} {P : α → Prop} : c.RoundTrips P → Derived c P
  | array {α : Type} {c : Codec α} {P : α → Prop} : Derived c P →
      Derived c.array fun xs => xs.length < 2 ^ 32 - 1 ∧ ∀ x ∈ xs, P x
  | stdarray {α : Type} {c : Codec α} {P : α → Prop} {n : ℕ} : Derived c P → n < 2 ^ 32 - 1 →
      Derived (c.stdarray n) fun x => ∀ y ∈ x.toList, P y
  | map {κ β : Type} [DecidableEq κ] {k : Codec κ} {v : Codec β} {R : κ → Prop} {Q : β → Prop}
      (it : Iteration κ β) : Derived k R → Derived v Q →
      Derived (map it k v) fun m =>
        m.entries.card < 2 ^ 32 - 1 ∧ ∀ e ∈ m.entries, R e.1 ∧ Q e.2
  | tupleNil : Derived tupleNil fun _ => True
  | tupleCons {α β : Type} {c : Codec α} {cs : Codec β} {P : α → Prop} {Q : β → Prop} :
      Derived c P → Derived cs Q → Derived (tupleCons c cs) fun x => P x.1 ∧ Q x.2
  | object {φ : Type} {c : Codec φ} {P : φ → Prop} : Derived c P →
      Derived (object c) fun x => (c.pack x.fields).length < 2 ^ 32 - 1 ∧ P x.fields

/-- Every codec derived from round-tripping element codecs, at any depth, round-trips
on the values whose sizes can be announced. -/
theorem derived_roundTrips {c : Codec α} (h : Derived c P) : c.RoundTrips P := by
  induction h with
  | element hc => exact hc
  | array _ ih => exact roundTrips_array ih
  | stdarray _ hn ih => exact roundTrips_stdarray ih hn
  | map it _ _ ihk ihv => exact roundTrips_map it ihk ihv
  | tupleNil => exact roundTrips_tupleNil
  | tupleCons _ _ ih ihs => exact roundTrips_tupleCons ih ihs
  | object _ ih => exact roundTrips_object ih

theorem roundTrips_bool : Codec.bool.RoundTrips fun _ => True := by
  rintro (_ | _) _ rest <;> rfl

theorem roundTrips_nullptr : Codec.nullptr.RoundTrips fun _ => True := fun _ _ _ => rfl

/-- A list of objects, each with an array of two truth values and nothing else. -/
theorem derived_roundTrips_nested :
    (object ((Codec.bool.stdarray 2).tupleCons tupleNil)).array.unpack []
        (of ((object ((Codec.bool.stdarray 2).tupleCons tupleNil)).array.pack
          [⟨#v[true, false], ()⟩, ⟨#v[true, true], ()⟩] ++ [7])) =
      some ([⟨#v[true, false], ()⟩, ⟨#v[true, true], ()⟩], of [7]) :=
  derived_roundTrips
    (.array (.object (.tupleCons (.stdarray (.element roundTrips_bool) (by decide)) .tupleNil)))
    _ ⟨by decide, by simp; decide⟩ [7]

theorem packArray_full (c : Codec α) {xs : List α} (hn : 2 ^ 32 - 1 ≤ xs.length) :
    c.packArray xs = [] := by
  rw [packArray, packSize, if_neg (by omega), if_neg (by omega), if_neg (by omega)]

theorem pack_stdarray_full {c : Codec α} {n : ℕ} (hn : 2 ^ 32 - 1 ≤ n) (x : Vector α n) :
    (c.stdarray n).pack x = [] :=
  packArray_full c (by rwa [Vector.length_toList])

theorem unpack_stdarray_nil {n : ℕ} (c : Codec α) (x : Vector α n) :
    ∃ y, c.unpackStdarray x (of []) = some (y, ⟨[], 0, .outOfRange⟩) := by
  have hempty : c.unpackArray [] (of []) = some ([], ⟨[], 0, .outOfRange⟩) := rfl
  rw [unpackStdarray, hempty]
  exact ⟨_, rfl⟩

/-- Longer arrays are packed into nothing. -/
theorem not_roundTrips_stdarray {c : Codec α} {n : ℕ} (hn : 2 ^ 32 - 1 ≤ n) :
    ¬ (c.stdarray n).RoundTrips fun _ => True := by
  intro h
  have hlost := h (Vector.replicate n c.init) trivial []
  obtain ⟨y, hy⟩ := unpack_stdarray_nil c (Vector.replicate n c.init)
  rw [pack_stdarray_full hn, List.append_nil] at hlost
  have herr := hy.symm.trans hlost
  simp [of] at herr

/-- An array of `2 ^ 32 - 1` null pointers is packed into nothing. -/
theorem not_roundTrips_stdarray_full :
    Codec.nullptr.RoundTrips (fun _ => True) ∧
      ¬ (Codec.nullptr.stdarray (2 ^ 32 - 1)).RoundTrips fun _ => True :=
  ⟨roundTrips_nullptr, not_roundTrips_stdarray le_rfl⟩

end Codec

end Plain.Rpc
