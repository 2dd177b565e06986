import Plain.Foundation.Shift
import Plain.Net.Packet

/-! # Fields of a packet

Integers, strings and byte strings that are written to a packet one after the other and
read back in the same order. Nothing is written for an empty string, but four bytes are
read for it where there are any. From there on the reader is out of step, and it only gets
back the fields whose bytes are all zero.
-/

namespace Plain.Net

open Shift

inductive Field where
  | int (w : ℕ) (supported : w ∈ [8, 16, 32, 64]) (value : BitVec w)
  | string (str : List Byte)
  | bytes (data : List Byte)
  deriving DecidableEq, Repr

namespace Field

/-- The size of a string or byte string is an `uint32_t`. -/
def Sized : Field → Prop
  | int _ _ _ => True
  | string str => str.length < 2 ^ 32
  | bytes data => data.length < 2 ^ 32

def write (host : Endian) (p : Packet) : Field → Packet
  | int _ _ value => p.writeInt host value
  | string str => (p.writeString host str).1
  | bytes data => (p.writeBytes host data).1

def read (host : Endian) (p : Packet) : Field → Packet × Field
  | int w supported _ => ((p.readInt host w).1, int w supported (p.readInt host w).2)
  | string _ => ((p.readString host).1, string (p.readString host).2)
  | bytes _ => ((p.readBytes host).1, bytes (p.readBytes host).2)

end Field

def writeFields (host : Endian) (p : Packet) (fields : List Field) : Packet :=
  fields.foldl (fun p f => f.write host p) p

def readFields (host : Endian) (p : Packet) : List Field → Packet × List Field
  | [] => (p, [])
  | f :: fs =>
      let r := f.read host p
      let t := readFields host r.1 fs
      (t.1, r.2 :: t.2)

/-- The fields come back as they were written, and nothing is left in the packet. -/
def FieldsRoundTrip (host : Endian) (fields : List Field) : Prop :=
  let p := (writeFields host (Packet.new.setWriteable true) fields).setReadable true
  let r := readFields host p fields
  r.2 = fields ∧ r.1.offset = r.1.data.length

section Bytes

def Field.encoded : Field → List Byte
  | .int w _ value => bigEndian value.toNat (w / 8)
  | .string str => Packet.stringField str
  | .bytes data => bigEndian (data.length % 2 ^ 32) 4 ++ data

def encodedFields (fields : List Field) : List Byte := fields.flatMap Field.encoded

theorem write_encoded {host : Endian} {p : Packet} (h : p.haveFlag .writeable = true)
    (f : Field) : f.write host p = { p with data := p.data ++ f.encoded } := by
  cases f with
  | int w supported value => exact Packet.writeInt_of_writeable supported h value
  | string str => rw [Field.write, Packet.writeString_of_writeable h, Field.encoded]
  | bytes data => rw [Field.write, Packet.writeBytes_of_writeable h, Field.encoded]

theorem writeFields_eq {host : Endian} {p : Packet} (h : p.haveFlag .writeable = true)
    (fields : List Field) :
    writeFields host p fields = { p with data := p.data ++ encodedFields fields } := by
  induction fields generalizing p with
  | nil => simp [writeFields, encodedFields]
  | cons f fs ih =>
    have hcons := ih (p := { p with data := p.data ++ f.encoded }) h
    rw [writeFields, List.foldl_cons, write_encoded h]
    rw [writeFields] at hcons
    simpa [encodedFields] using hcons

structure Left (p : Packet) (u : List Byte) : Prop where
  readable : p.haveFlag .readable = true
  offset_le : p.offset ≤ p.data.length
  drop_eq : p.data.drop p.offset = u

variable {host : Endian} {p : Packet} {u : List Byte}

theorem Left.length_eq (h : Left p u) : p.data.length - p.offset = u.length := by
  rw [← h.drop_eq, List.length_drop]

theorem Left.read_some (h : Left p u) {n : ℕ} (hn : n ≤ u.length) :
    (p.read n).2 = some (u.take n) ∧ Left (p.read n).1 (u.drop n) := by
  have hlen := h.length_eq
  rw [Packet.read, if_pos ⟨h.readable, by omega⟩]
  refine ⟨by rw [h.drop_eq], h.readable, ?_, ?_⟩
  · change p.offset + n ≤ p.data.length
    have := h.offset_le
    omega
  · change p.data.drop (p.offset + n) = u.drop n
    rw [← List.drop_drop, h.drop_eq]

theorem Left.read_none (h : Left p u) {n : ℕ} (hn : u.length < n) : p.read n = (p, none) := by
  have hlen := h.length_eq
  exact if_neg fun hc => by omega

theorem ntoh_zero {w : ℕ} (hw : w ∈ [8, 16, 32, 64]) (host : Endian) :
    ntoh host (0 : BitVec w) = 0 := by
  simp only [List.mem_cons, List.not_mem_nil, or_false] at hw
  rcases hw with rfl | rfl | rfl | rfl <;> cases host <;> rfl

/-- The number in the next `n` bytes, or zero without moving where there are fewer. -/
def scanInt (n : ℕ) (u : List Byte) : ℕ × List Byte :=
  if n ≤ u.length then (ofBigEndian (u.take n), u.drop n) else (0, u)

theorem scanInt_of_le {n : ℕ} (h : n ≤ u.length) :
    scanInt n u = (ofBigEndian (u.take n), u.drop n) := if_pos h

theorem scanInt_of_lt {n : ℕ} (h : u.length < n) : scanInt n u = (0, u) :=
  if_neg (Nat.not_le_of_lt h)

theorem scanInt_lt (n : ℕ) (u : List Byte) : (scanInt n u).1 < 256 ^ n := by
  unfold scanInt
  split
  · rename_i h
    have := ofBigEndian_lt (u.take n)
    rwa [List.length_take, Nat.min_eq_left h] at this
  · exact Nat.pow_pos (by decide)

def scanBytes (u : List Byte) : List Byte × List Byte :=
  let r := scanInt 4 u
  if r.1 = 0 ∨ r.2.length < r.1 then ([], r.2) else (r.2.take r.1, r.2.drop r.1)

def Field.scan (u : List Byte) : Field → Field × List Byte
  | .int w supported _ =>
      (.int w supported (BitVec.ofNat w (scanInt (w / 8) u).1), (scanInt (w / 8) u).2)
  | .string _ => (.string (scanBytes u).1, (scanBytes u).2)
  | .bytes _ => (.bytes (scanBytes u).1, (scanBytes u).2)

def scanFields (u : List Byte) : List Field → List Field × List Byte
  | [] => ([], u)
  | f :: fs =>
      let r := f.scan u
      let t := scanFields r.2 fs
      (r.1 :: t.1, t.2)

theorem Left.readInt (h : Left p u) (host : Endian) {w : ℕ} (hw : w ∈ [8, 16, 32, 64]) :
    (p.readInt host w).2 = BitVec.ofNat w (scanInt (w / 8) u).1 ∧
      Left (p.readInt host w).1 (scanInt (w / 8) u).2 := by
  by_cases hle : w / 8 ≤ u.length
  · obtain ⟨hsome, hleft⟩ := h.read_some hle
    rcases hr : p.read (w / 8) with ⟨q, o⟩
    rw [hr] at hsome hleft
    cases hsome
    rw [scanInt_of_le hle]
    simp only [Packet.readInt, hr]
    exact ⟨ntoh_ofBytes hw host (by simp [hle]), hleft⟩
  · rw [scanInt_of_lt (Nat.lt_of_not_le hle)]
    simp only [Packet.readInt, h.read_none (Nat.lt_of_not_le hle)]
    exact ⟨ntoh_zero hw host, h⟩

theorem Left.readString (h : Left p u) (host : Endian) :
    (p.readString host).2 = (scanBytes u).1 ∧ Left (p.readString host).1 (scanBytes u).2 := by
  obtain ⟨hval, hleft⟩ := h.readInt host (w := 32) (by decide)
  have hlt : (scanInt 4 u).1 < 2 ^ 32 := scanInt_lt 4 u
  rcases hr : p.readInt host 32 with ⟨q, length⟩
  rw [hr] at hval hleft
  have hnat : length.toNat = (scanInt 4 u).1 := by
    rw [show length = _ from hval, BitVec.toNat_ofNat, Nat.mod_eq_of_lt hlt]
  simp only [Packet.readString, h.readable, if_true, hr, scanBytes]
  by_cases h0 : (scanInt 4 u).1 = 0
  · have hz : length = 0 := BitVec.eq_of_toNat_eq (by rw [hnat, h0]; rfl)
    rw [if_pos hz, if_pos (Or.inl h0)]
    exact ⟨rfl, hleft⟩
  · rw [if_neg fun he => h0 (by rw [← hnat, he]; rfl), hnat]
    by_cases hlen : (scanInt 4 u).2.length < (scanInt 4 u).1
    · rw [if_pos (Or.inr hlen), hleft.read_none hlen]
      exact ⟨rfl, hleft⟩
    · obtain ⟨hsome, hleft'⟩ := hleft.read_some (Nat.le_of_not_lt hlen)
      rw [if_neg (not_or.mpr ⟨h0, hlen⟩)]
      rcases hr' : q.read (scanInt 4 u).1 with ⟨q', o⟩
      rw [hr'] at hsome hleft'
      cases hsome
      exact ⟨rfl, hleft'⟩

theorem Left.read_field (h : Left p u) (host : Endian) (f : Field) :
    (f.read host p).2 = (f.scan u).1 ∧ Left (f.read host p).1 (f.scan u).2 := by
  cases f with
  | int w supported value =>
    obtain ⟨hval, hleft⟩ := h.readInt host supported
    exact ⟨congrArg (Field.int w supported) hval, hleft⟩
  | string str =>
    obtain ⟨hval, hleft⟩ := h.readString host
    exact ⟨congrArg Field.string hval, hleft⟩
  | bytes data =>
    obtain ⟨hval, hleft⟩ := h.readString host
    exact ⟨congrArg Field.bytes hval, hleft⟩

theorem Left.read_fields (h : Left p u) (host : Endian) (fields : List Field) :
    (readFields host p fields).2 = (scanFields u fields).1 ∧
      Left (readFields host p fields).1 (scanFields u fields).2 := by
  induction fields generalizing p u with
  | nil => exact ⟨rfl, h⟩
  | cons f fs ih =>
    obtain ⟨hval, hleft⟩ := h.read_field host f
    obtain ⟨hvals, hleft'⟩ := ih hleft
    exact ⟨by simp only [readFields, scanFields, hval, hvals], hleft'⟩

theorem fieldsRoundTrip_iff_scan (host : Endian) (fields : List Field) :
    FieldsRoundTrip host fields ↔ scanFields (encodedFields fields) fields = (fields, []) := by
  have hw : (Packet.new.setWriteable true).haveFlag .writeable = true := by decide
  have hleft : Left ((writeFields host (Packet.new.setWriteable true) fields).setReadable true)
      (encodedFields fields) := by
    rw [writeFields_eq hw]
    exact ⟨by simp [Packet.haveFlag, Packet.setReadable, Packet.setFlag, Packet.setWriteable,
      Packet.new, PacketFlag.bit], Nat.zero_le _, rfl⟩
  obtain ⟨hvals, hrest⟩ := hleft.read_fields host fields
  have hoff := hrest.offset_le
  rw [FieldsRoundTrip, hvals, Prod.ext_iff, ← hrest.drop_eq, List.drop_eq_nil_iff]
  constructor
  · rintro ⟨h₁, h₂⟩
    exact ⟨h₁, Nat.le_of_eq h₂.symm⟩
  · rintro ⟨h₁, h₂⟩
    exact ⟨h₁, Nat.le_antisymm hoff h₂⟩

end Bytes

section Blocks

variable {u : List Byte} {f : Field}

/-- The fields that all bytes are zero for, and the strings that none are written for. -/
def Field.Zero : Field → Prop
  | .int _ _ value => value = 0
  | .string str => str = []
  | .bytes data => data = []

instance : (f : Field) → Decidable f.Zero
  | .int _ _ _ => inferInstanceAs (Decidable (_ = _))
  | .string _ => inferInstanceAs (Decidable (_ = _))
  | .bytes _ => inferInstanceAs (Decidable (_ = _))

theorem encoded_of_zero (h : f.Zero) : f.encoded = List.replicate f.encoded.length 0 := by
  cases f with
  | int w supported value =>
    cases h
    simp [Field.encoded, bigEndian_zero_left]
  | string str =>
    cases h
    rfl
  | bytes data =>
    cases h
    simp [Field.encoded, bigEndian_zero_left]

/-- What stands in the packet for a string or byte string with its size. -/
def sizedBytes (data : List Byte) : List Byte := bigEndian data.length 4 ++ data

theorem encoded_string {str : List Byte} (h : (Field.string str).Sized) (hne : str ≠ []) :
    (Field.string str).encoded = sizedBytes str := by
  rw [Field.encoded, Packet.stringField, if_neg hne, Nat.mod_eq_of_lt h, sizedBytes]

theorem encoded_bytes {data : List Byte} (h : (Field.bytes data).Sized) :
    (Field.bytes data).encoded = sizedBytes data := by
  rw [Field.encoded, Nat.mod_eq_of_lt h, sizedBytes]

@[simp] theorem length_sizedBytes (data : List Byte) :
    (sizedBytes data).length = 4 + data.length := by
  simp [sizedBytes]

theorem scanBytes_of_le (h : 4 ≤ u.length) :
    scanBytes u =
      let n := ofBigEndian (u.take 4)
      if n = 0 ∨ (u.drop 4).length < n then ([], u.drop 4)
      else ((u.drop 4).take n, (u.drop 4).drop n) := by
  simp only [scanBytes, scanInt_of_le h]

theorem scanBytes_short (h : u.length < 4) : scanBytes u = ([], u) := by
  simp [scanBytes, scanInt_of_lt h]

theorem scanBytes_spec {data : List Byte} (h : (scanBytes u).1 = data) (hne : data ≠ []) :
    (sizedBytes data).length ≤ u.length ∧ u.take (sizedBytes data).length = sizedBytes data ∧
      (scanBytes u).2 = u.drop (sizedBytes data).length := by
  by_cases h4 : 4 ≤ u.length
  · rw [scanBytes_of_le h4] at h ⊢
    dsimp only at h ⊢
    have hhead := bigEndian_ofBigEndian (u.take 4)
    rw [List.length_take, Nat.min_eq_left h4] at hhead
    split at h
    · exact absurd h.symm hne
    · rename_i hc
      rw [not_or, Nat.not_lt, List.length_drop] at hc
      have hlen : data.length = ofBigEndian (u.take 4) := by
        rw [← h, List.length_take, List.length_drop, Nat.min_eq_left hc.2]
      rw [if_neg (by rw [not_or, Nat.not_lt, List.length_drop]; exact hc), length_sizedBytes, hlen]
      refine ⟨by omega, ?_, by rw [List.drop_drop]⟩
      rw [List.take_add, sizedBytes, hlen, hhead]
      exact congrArg (u.take 4 ++ ·) h
  · rw [scanBytes_short (by omega)] at h
    exact absurd h.symm hne

theorem scanBytes_nil (h : (scanBytes u).1 = []) :
    (scanBytes u).2 = if 4 ≤ u.length then u.drop 4 else u := by
  by_cases h4 : 4 ≤ u.length
  · rw [scanBytes_of_le h4] at h ⊢
    rw [if_pos h4]
    dsimp only at h ⊢
    split
    · rfl
    · rename_i hc
      rw [if_neg hc] at h
      rw [not_or, Nat.not_lt] at hc
      have hlen := congrArg List.length h
      rw [List.length_take, Nat.min_eq_left hc.2] at hlen
      exact absurd hlen hc.1
  · rw [if_neg h4, scanBytes_short (by omega)]

theorem scanBytes_of_take {data : List Byte} (hsize : data.length < 2 ^ 32)
    (hle : (sizedBytes data).length ≤ u.length)
    (h : u.take (sizedBytes data).length = sizedBytes data) :
    scanBytes u = (data, u.drop (sizedBytes data).length) := by
  rw [length_sizedBytes] at hle h ⊢
  rw [List.take_add, sizedBytes] at h
  obtain ⟨hhead, hdata⟩ := List.append_inj h (by simp; omega)
  have hn : ofBigEndian (u.take 4) = data.length := by
    rw [hhead, ofBigEndian_bigEndian]
    exact Nat.mod_eq_of_lt hsize
  rw [scanBytes_of_le (by omega), hn]
  dsimp only
  split
  · rename_i hc
    rw [List.length_drop] at hc
    have h0 : data.length = 0 := by omega
    rw [List.length_eq_zero_iff.mp h0]
    rfl
  · rw [hdata, List.drop_drop]

theorem scan_int_eq_iff {w : ℕ} (supported : w ∈ [8, 16, 32, 64]) {value : BitVec w}
    (hle : w / 8 ≤ u.length) :
    BitVec.ofNat w (ofBigEndian (u.take (w / 8))) = value ↔
      u.take (w / 8) = bigEndian value.toNat (w / 8) := by
  have hlen : (u.take (w / 8)).length = w / 8 := by simp [hle]
  constructor
  · rintro rfl
    have hlt := ofBigEndian_lt (u.take (w / 8))
    rw [hlen, ← pow_width supported] at hlt
    rw [BitVec.toNat_ofNat, Nat.mod_eq_of_lt hlt]
    have hback := bigEndian_ofBigEndian (u.take (w / 8))
    rw [hlen] at hback
    exact hback.symm
  · intro h
    rw [h, ofBigEndian_bigEndian, ← pow_width supported]
    simp

theorem scan_block (hs : f.Sized) (hne : f ≠ .string []) (h : (f.scan u).1 = f) :
    (u.length < f.encoded.length ∧ f.Zero ∧ (f.scan u).2 = u) ∨
      (f.encoded.length ≤ u.length ∧ (f.Zero ∨ u.take f.encoded.length = f.encoded) ∧
        (f.scan u).2 = u.drop f.encoded.length) := by
  have hbytes {data : List Byte} (hd : (scanBytes u).1 = data) :
      (u.length < (sizedBytes data).length ∧ data = [] ∧ (scanBytes u).2 = u) ∨
        ((sizedBytes data).length ≤ u.length ∧
          (data = [] ∨ u.take (sizedBytes data).length = sizedBytes data) ∧
          (scanBytes u).2 = u.drop (sizedBytes data).length) := by
    by_cases hnil : data = []
    · subst hnil
      rw [scanBytes_nil hd, length_sizedBytes, List.length_nil]
      by_cases h4 : 4 ≤ u.length
      · exact Or.inr ⟨h4, Or.inl rfl, if_pos h4⟩
      · exact Or.inl ⟨Nat.lt_of_not_le h4, rfl, if_neg h4⟩
    · obtain ⟨hle, htake, hrest⟩ := scanBytes_spec hd hnil
      exact Or.inr ⟨hle, Or.inr htake, hrest⟩
  cases f with
  | int w supported value =>
    simp only [Field.scan, Field.int.injEq, heq_eq_eq, true_and] at h
    simp only [Field.encoded, length_bigEndian, Field.scan, Field.Zero]
    by_cases hle : w / 8 ≤ u.length
    · rw [scanInt_of_le hle] at h ⊢
      exact Or.inr ⟨hle, Or.inr ((scan_int_eq_iff supported hle).mp h), rfl⟩
    · rw [scanInt_of_lt (by omega)] at h ⊢
      exact Or.inl ⟨by omega, h.symm, rfl⟩
  | string str =>
    rw [encoded_string hs fun hnil => hne (congrArg Field.string hnil)]
    exact hbytes (Field.string.inj h)
  | bytes data =>
    rw [encoded_bytes hs]
    exact hbytes (Field.bytes.inj h)

theorem scan_of_take (hs : f.Sized) (hne : f ≠ .string []) (hle : f.encoded.length ≤ u.length)
    (h : u.take f.encoded.length = f.encoded) : f.scan u = (f, u.drop f.encoded.length) := by
  cases f with
  | int w supported value =>
    simp only [Field.encoded, length_bigEndian] at hle h ⊢
    rw [Field.scan, scanInt_of_le hle, (scan_int_eq_iff supported hle).mpr h]
  | string str =>
    rw [encoded_string hs fun hnil => hne (congrArg Field.string hnil)] at hle h ⊢
    rw [Field.scan, scanBytes_of_take hs hle h]
  | bytes data =>
    rw [encoded_bytes hs] at hle h ⊢
    rw [Field.scan, scanBytes_of_take hs hle h]

theorem scan_short (hne : f ≠ .string []) (hz : f.Zero) (h : u.length < f.encoded.length) :
    f.scan u = (f, u) := by
  cases f with
  | int w supported value =>
    cases hz
    simp only [Field.encoded, length_bigEndian] at h
    rw [Field.scan, scanInt_of_lt h]
    rfl
  | string str =>
    cases hz
    exact absurd rfl hne
  | bytes data =>
    cases hz
    rw [Field.scan, scanBytes_short (by simpa [Field.encoded] using h)]

theorem zero_of_encoded (hs : f.Sized) (h : ∀ b ∈ f.encoded, b = 0) : f.Zero := by
  have hbytes {data : List Byte} (hd : data.length < 2 ^ 32)
      (hz : ∀ b ∈ sizedBytes data, b = 0) : data = [] := by
    have h0 := ofBigEndian_of_zero fun b hb => hz b (List.mem_append_left data hb)
    rw [ofBigEndian_bigEndian, Nat.mod_eq_of_lt (show _ < 256 ^ 4 from hd)] at h0
    exact List.length_eq_zero_iff.mp h0
  cases f with
  | int w supported value =>
    have h0 := ofBigEndian_of_zero h
    rw [Field.encoded, ofBigEndian_bigEndian, ← pow_width supported,
      Nat.mod_eq_of_lt value.isLt] at h0
    exact BitVec.eq_of_toNat_eq h0
  | string str =>
    by_cases hnil : str = []
    · exact hnil
    · rw [encoded_string hs hnil] at h
      exact hbytes hs h
  | bytes data =>
    rw [encoded_bytes hs] at h
    exact hbytes hs h

end Blocks

section Drift

/-- The fields are read back although the reader is `d` bytes ahead of them: where it is not
in step a field has to be zero, an empty string takes it four bytes further if they are
there, and it stays where too little is left for a field. -/
def InStep : List Field → ℤ → Prop
  | [], d => d = 0
  | f :: fs, d =>
      if f = .string [] then
        if (encodedFields fs).length - d < 4 then InStep fs d else InStep fs (d + 4)
      else (d ≠ 0 → f.Zero) ∧
        if (encodedFields fs).length < d then InStep fs (d - f.encoded.length) else InStep fs d

variable {f : Field} {fs : List Field} {d : ℤ}

@[simp] theorem encodedFields_cons : encodedFields (f :: fs) = f.encoded ++ encodedFields fs := rfl

theorem inStep_empty : InStep (.string [] :: fs) d ↔
    if (encodedFields fs).length - d < 4 then InStep fs d else InStep fs (d + 4) := by
  rw [InStep, if_pos rfl]

theorem inStep_block (h : f ≠ .string []) : InStep (f :: fs) d ↔ (d ≠ 0 → f.Zero) ∧
    if (encodedFields fs).length < d then InStep fs (d - f.encoded.length) else InStep fs d := by
  rw [InStep, if_neg h]

/-- A reader that is ahead and gets the fields back has only zero bytes behind it. -/
theorem InStep.padded (h : InStep fs d) (hd : d ≤ (encodedFields fs).length) :
    PaddedTo 0 (encodedFields fs) d := by
  induction fs generalizing d with
  | nil =>
    cases h
    exact fun b hb => nomatch hb
  | cons f fs ih =>
    by_cases hf : f = .string []
    · subst hf
      rw [inStep_empty] at h
      change PaddedTo 0 (encodedFields fs) d
      split at h
      · exact ih h hd
      · intro b hb
        refine ih h (by omega) b (List.take_subset_take_left _ (by omega) hb)
    · rw [inStep_block hf] at h
      obtain ⟨hz, h⟩ := h
      intro b hb
      by_cases hpos : d ≤ 0
      · rw [Int.toNat_of_nonpos hpos] at hb
        exact nomatch hb
      · rw [encodedFields_cons, List.take_append, List.mem_append] at hb
        rcases hb with hb | hb
        · have he := encoded_of_zero (hz (by omega))
          rw [he] at hb
          exact List.eq_of_mem_replicate (List.mem_of_mem_take hb)
        · split at h
          · refine ih h ?_ b ?_
            · rw [encodedFields_cons, List.length_append] at hd
              omega
            · rwa [Int.toNat_sub'] 
          · exact ih h (by omega) b (List.take_subset_take_left _ (by omega) hb)

theorem scanFields_cons_eq {u : List Byte} :
    scanFields u (f :: fs) = (f :: fs, []) ↔
      (f.scan u).1 = f ∧ scanFields (f.scan u).2 fs = (fs, []) := by
  simp only [scanFields, List.cons.injEq, Prod.ext_iff, and_assoc]

/-- An empty string is read back, and where four bytes are left the reader moves over them. -/
theorem scan_empty_iff (hd : d ≤ (encodedFields fs).length)
    (ih : ∀ {d : ℤ}, d ≤ (encodedFields fs).length →
      (scanFields (shift 0 d (encodedFields fs)) fs = (fs, []) ↔ InStep fs d)) :
    scanFields (shift 0 d (encodedFields fs)) (.string [] :: fs) = (.string [] :: fs, []) ↔
      InStep (.string [] :: fs) d := by
  have hlen := length_shift (z := (0 : Byte)) hd
  rw [scanFields_cons_eq, inStep_empty]
  simp only [Field.scan, Field.string.injEq]
  split
  · rw [scanBytes_short (by omega)]
    simpa using ih hd
  · have h4 : 4 ≤ (shift 0 d (encodedFields fs)).length := by omega
    have hd4 : d + 4 ≤ (encodedFields fs).length := by omega
    constructor
    · rintro ⟨hnil, hrest⟩
      rw [scanBytes_nil hnil, if_pos h4, drop_shift] at hrest
      exact (ih hd4).mp hrest
    · intro h
      have h0 := ofBigEndian_of_zero (padded_take_shift (k := 4) (h.padded hd4))
      have hscan : scanBytes (shift 0 d (encodedFields fs)) =
          ([], (shift 0 d (encodedFields fs)).drop 4) := by
        rw [scanBytes_of_le h4]
        exact if_pos (Or.inl h0)
      rw [hscan, drop_shift]
      exact ⟨rfl, (ih hd4).mpr h⟩

theorem zero_of_scan (hs : f.Sized) (hd : d ≠ 0) (hp : PaddedTo 0 (encodedFields fs) d)
    (h : f.Zero ∨ (shift 0 d (f.encoded ++ encodedFields fs)).take f.encoded.length = f.encoded) :
    f.Zero := by
  rcases h with h | h
  · exact h
  · exact zero_of_encoded hs (padded_of_take_shift hd h hp)

theorem shift_zero_field (hz : f.Zero) :
    shift 0 d (f.encoded ++ encodedFields fs) =
      shift 0 (d - f.encoded.length) (encodedFields fs) := by
  conv_lhs => rw [encoded_of_zero hz]
  exact shift_replicate_append _

theorem scan_short_iff (hs : f.Sized) (hf : f ≠ .string [])
    (hd : d ≤ (encodedFields (f :: fs)).length) (hlt : (encodedFields fs).length < d)
    (ih : ∀ {d : ℤ}, d ≤ (encodedFields fs).length →
      (scanFields (shift 0 d (encodedFields fs)) fs = (fs, []) ↔ InStep fs d)) :
    scanFields (shift 0 d (encodedFields (f :: fs))) (f :: fs) = (f :: fs, []) ↔
      InStep (f :: fs) d := by
  have hlen := length_shift (z := (0 : Byte)) hd
  rw [encodedFields_cons, List.length_append] at hd hlen
  have hd' : d - f.encoded.length ≤ (encodedFields fs).length := by omega
  rw [scanFields_cons_eq, inStep_block hf, if_pos hlt, encodedFields_cons]
  constructor
  · rintro ⟨hback, hrest⟩
    rcases scan_block hs hf hback with ⟨_, hz, hu⟩ | ⟨hle, _, _⟩
    · rw [hu, shift_zero_field hz] at hrest
      exact ⟨fun _ => hz, (ih hd').mp hrest⟩
    · omega
  · rintro ⟨hz, h⟩
    have hz := hz (by omega)
    rw [scan_short hf hz (by omega), shift_zero_field hz]
    exact ⟨rfl, (ih hd').mpr h⟩

theorem scan_full_iff (hs : f.Sized) (hf : f ≠ .string [])
    (hd : d ≤ (encodedFields fs).length)
    (ih : ∀ {d : ℤ}, d ≤ (encodedFields fs).length →
      (scanFields (shift 0 d (encodedFields fs)) fs = (fs, []) ↔ InStep fs d)) :
    scanFields (shift 0 d (encodedFields (f :: fs))) (f :: fs) = (f :: fs, []) ↔
      InStep (f :: fs) d := by
  have hlen := length_shift (z := (0 : Byte)) (l := f.encoded ++ encodedFields fs)
    (by rw [List.length_append]; omega : d ≤ _)
  rw [List.length_append] at hlen
  have hle : f.encoded.length ≤ (shift 0 d (f.encoded ++ encodedFields fs)).length := by omega
  rw [scanFields_cons_eq, inStep_block hf, if_neg (by omega), encodedFields_cons, ← ih hd]
  constructor
  · rintro ⟨hback, hrest⟩
    rcases scan_block hs hf hback with ⟨hlt, _, _⟩ | ⟨_, htake, hu⟩
    · omega
    · rw [hu, drop_shift] at hrest
      rcases Int.lt_trichotomy d 0 with hneg | rfl | hpos
      · have hz := zero_of_scan hs (by omega) (fun b hb => by
          rw [Int.toNat_of_nonpos (by omega)] at hb
          exact nomatch hb) htake
        rw [shift_zero_field hz, Int.add_sub_cancel] at hrest
        exact ⟨fun _ => hz, hrest⟩
      · rw [shift_append Int.le_rfl] at hrest
        exact ⟨fun h => absurd rfl h, hrest⟩
      · rw [shift_append (by omega)] at hrest
        exact ⟨fun h => zero_of_scan hs h (((ih hd).mp hrest).padded hd) htake, hrest⟩
  · rintro ⟨hz, hrest⟩
    by_cases h0 : d = 0
    · subst h0
      rw [shift_zero, scan_of_take hs hf (by simp) List.take_left, List.drop_left]
      exact ⟨rfl, hrest⟩
    · have hz := hz h0
      have hp := ((ih hd).mp hrest).padded hd
      have htake : (shift 0 d (f.encoded ++ encodedFields fs)).take f.encoded.length =
          f.encoded := by
        rw [encoded_of_zero hz, List.length_replicate]
        refine List.eq_replicate_iff.mpr ⟨?_, ?_⟩
        · rw [List.length_take, ← encoded_of_zero hz]
          omega
        · rw [← encoded_of_zero hz, shift_zero_field hz]
          exact padded_take_shift (by rwa [Int.sub_add_cancel])
      rw [scan_of_take hs hf hle htake, drop_shift, shift_zero_field hz, Int.add_sub_cancel]
      exact ⟨rfl, hrest⟩

theorem scanFields_shift_iff (hs : ∀ f ∈ fs, f.Sized) (hd : d ≤ (encodedFields fs).length) :
    scanFields (shift 0 d (encodedFields fs)) fs = (fs, []) ↔ InStep fs d := by
  induction fs generalizing d with
  | nil =>
    change d ≤ ((0 : ℕ) : ℤ) at hd
    have hlen := length_shift (z := (0 : Byte)) (l := []) hd
    change _ = (((0 : ℕ) : ℤ) - d) at hlen
    rw [InStep, scanFields, Prod.mk.injEq]
    constructor
    · rintro ⟨_, h⟩
      have h0 : (shift (0 : Byte) d []).length = 0 := congrArg List.length h
      omega
    · rintro rfl
      exact ⟨rfl, rfl⟩
  | cons f fs ih =>
    rw [List.forall_mem_cons] at hs
    have ih' {d : ℤ} := ih hs.2 (d := d)
    by_cases hf : f = .string []
    · subst hf
      change d ≤ ((encodedFields fs).length : ℤ) at hd
      exact scan_empty_iff hd ih'
    · by_cases hlt : (encodedFields fs).length < d
      · exact scan_short_iff hs.1 hf hd hlt ih'
      · exact scan_full_iff hs.1 hf (by omega) ih'

end Drift

/-- Fields written to a packet are read back, and the packet is then at its end, exactly when
the reader is in step or at zero fields all the way. -/
theorem fields_roundTrip_iff (host : Endian) (fields : List Field)
    (hs : ∀ f ∈ fields, f.Sized) : FieldsRoundTrip host fields ↔ InStep fields 0 := by
  rw [fieldsRoundTrip_iff_scan, ← scanFields_shift_iff hs (Int.natCast_nonneg _), shift_zero]

theorem fields_roundTrip_iff_last :
    InStep [.int 16 (by decide) 0x0102, .bytes [], .string [0x61], .string []] 0 ∧
      FieldsRoundTrip .little
        [.int 16 (by decide) 0x0102, .bytes [], .string [0x61], .string []] :=
  have hstep : InStep [.int 16 (by decide) 0x0102, .bytes [], .string [0x61], .string []] 0 := by
    simp [InStep, encodedFields, Field.encoded, Packet.stringField]
  ⟨hstep, (fields_roundTrip_iff .little _ (by simp [Field.Sized])).mpr hstep⟩

/-- An empty string swallows the integer behind it. -/
theorem empty_string_swallows_int :
    let fields : List Field := [.string [], .int 32 (by decide) 7]
    let p := (writeFields .little (Packet.new.setWriteable true) fields).setReadable true
    (readFields .little p fields).2 = [.string [], .int 32 (by decide) 0] := by
  decide +kernel

end Plain.Net
