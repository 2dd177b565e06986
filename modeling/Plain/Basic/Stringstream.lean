import Plain.Basic.Endian
import Plain.Foundation.Bytes
import Plain.Foundation.Int32

/-! # The string stream

Integers and strings are written to a buffer one after the other and read back from its
start. A string is read through an array of fixed size and comes back as the C string in
it, so it must be shorter than the array and may not hold a null character.
-/

namespace Plain

def sstreamStringSizeMax : ℕ := 10240

structure Stringstream where
  str : List Byte
  cur : ℕ
  deriving Repr, DecidableEq

namespace Stringstream

def new (str : List Byte) : Stringstream := ⟨str, 0⟩

/-- `write` of the first `size` bytes at `var`, nothing if they do not fit. The sum of the sizes
wraps around; `none` is a copy from outside of `var` or to outside of the buffer. -/
def write (s : Stringstream) (var : List Byte) (size : ℕ) : Option Stringstream :=
  if s.str.length < (size + s.cur) % 2 ^ 64 then some s
  else if size ≤ var.length ∧ s.cur + size ≤ s.str.length then
    some ⟨s.str.take s.cur ++ var.take size ++ s.str.drop (s.cur + size), s.cur + size⟩
  else none

/-- `read` of `size` bytes into a destination of `room` bytes, and what is copied. -/
def read (s : Stringstream) (room size : ℕ) : Option (Stringstream × Option (List Byte)) :=
  if s.str.length < (size + s.cur) % 2 ^ 64 then some (s, none)
  else if size ≤ room ∧ s.cur + size ≤ s.str.length then
    some (⟨s.str, s.cur + size⟩, some ((s.str.drop s.cur).take size))
  else none

def setPosition (s : Stringstream) (position : ℕ) : Stringstream :=
  if s.str.length ≤ position then s else { s with cur := position }

section Operators

variable (host : Endian)

/-- `operator<<` of an integer; the overloads for 8 bits leave out the conversion. -/
def writeInt {w : ℕ} (s : Stringstream) (value : BitVec w) : Option Stringstream :=
  let value := if w = 8 then value else hton host value
  s.write (host.bytes value) (w / 8)

def readInt {w : ℕ} (s : Stringstream) (var : BitVec w) : Option (Stringstream × BitVec w) :=
  (s.read (w / 8) (w / 8)).map fun r =>
    let var := match r.2 with
      | none => var
      | some bytes => host.ofBytes w bytes
    (r.1, if w = 8 then var else ntoh host var)

def writeString (s : Stringstream) (var : List Byte) : Option Stringstream :=
  let size := BitVec.ofNat 32 var.length
  (s.write (host.bytes (hton host size)) 4).bind fun s =>
    s.write (var ++ [0]) (size.signExtend 64).toNat

def temp (copied : Option (List Byte)) : List Byte :=
  copied.getD [] ++ List.replicate (sstreamStringSizeMax - (copied.getD []).length) 0

/-- `var = temp`, which looks for a null character beyond the array if it has none. -/
def assign (temp : List Byte) : Option (List Byte) :=
  if 0 ∈ temp then some (cString temp) else none

def readString (s : Stringstream) : Option (Stringstream × List Byte) :=
  (s.readInt host (0 : BitVec 32)).bind fun r =>
    if 0 < r.2.toInt then
      (r.1.read sstreamStringSizeMax r.2.toNat).bind fun t => (assign (temp t.2)).map (t.1, ·)
    else (assign (temp none)).map (r.1, ·)

inductive Width where
  | w8 | w16 | w32 | w64
  deriving DecidableEq, Repr

def Width.bits : Width → ℕ
  | w8 => 8
  | w16 => 16
  | w32 => 32
  | w64 => 64

inductive Field where
  | int (width : Width) (value : BitVec width.bits)
  | string (str : List Byte)
  deriving DecidableEq, Repr

namespace Field

def type : Field → Option Width
  | int width _ => some width
  | string _ => none

def write (s : Stringstream) : Field → Option Stringstream
  | int _ value => s.writeInt host value
  | string str => s.writeString host str

def read (s : Stringstream) : Field → Option (Stringstream × Field)
  | int width var => (s.readInt host var).map fun r => (r.1, int width r.2)
  | string _ => (s.readString host).map fun r => (r.1, string r.2)

end Field

def writeFields : Stringstream → List Field → Option Stringstream
  | s, [] => some s
  | s, f :: fs => (f.write host s).bind fun s => writeFields s fs

def readFields : Stringstream → List Field → Option (List Field)
  | _, [] => some []
  | s, var :: vars => (var.read host s).bind fun r => (readFields r.1 vars).map (r.2 :: ·)

/-- What `vars` hold after the fields were written to a buffer and read back from its start. -/
def roundTrip (str : List Byte) (fields vars : List Field) : Option (List Field) :=
  (writeFields host (new str) fields).bind fun s => readFields host (s.setPosition 0) vars

end Operators

namespace Field

def encoded : Field → List Byte
  | int width value => bigEndian value.toNat (width.bits / 8)
  | string str => bigEndian str.length 4 ++ str

/-- The strings that an array of characters can bring back. -/
def Readable : Field → Prop
  | int _ _ => True
  | string str => 0 ∉ str ∧ str.length < sstreamStringSizeMax

instance : (f : Field) → Decidable f.Readable
  | int _ _ => .isTrue trivial
  | string _ => inferInstanceAs (Decidable (_ ∧ _))

end Field

def encodedFields (fields : List Field) : List Byte := fields.flatMap Field.encoded

@[simp] theorem encodedFields_cons (f : Field) (fields : List Field) :
    encodedFields (f :: fields) = f.encoded ++ encodedFields fields := rfl

section Write

variable (host : Endian) (done : List Byte) {room : List Byte}

theorem write_append {var : List Byte} {size : ℕ} (hvar : size ≤ var.length)
    (hroom : size ≤ room.length) (hlt : (done ++ room).length < 2 ^ 64) :
    write ⟨done ++ room, done.length⟩ var size =
      some ⟨done ++ (var.take size ++ room.drop size), (done ++ var.take size).length⟩ := by
  have hlen : (done ++ room).length = done.length + room.length := List.length_append
  have hmod : (size + done.length) % 2 ^ 64 = size + done.length := Nat.mod_eq_of_lt (by omega)
  rw [write, if_neg (by dsimp only; omega), if_pos ⟨hvar, by dsimp only; omega⟩]
  simp [List.drop_append, hvar]

theorem Width.supported (width : Width) : width.bits ∈ [8, 16, 32, 64] := by
  cases width <;> decide

theorem convert_eq {w : ℕ} (value : BitVec w) :
    (if w = 8 then value else ntoh host value) = ntoh host value := by
  split
  · rename_i h
    subst h
    cases host <;> rfl
  · rfl

theorem writeInt_append {w : ℕ} (hw : w ∈ [8, 16, 32, 64]) (value : BitVec w)
    (hroom : w / 8 ≤ room.length) (hlt : (done ++ room).length < 2 ^ 64) :
    writeInt host ⟨done ++ room, done.length⟩ value =
      some ⟨done ++ (bigEndian value.toNat (w / 8) ++ room.drop (w / 8)),
        (done ++ bigEndian value.toNat (w / 8)).length⟩ := by
  have hbytes : host.bytes (if w = 8 then value else hton host value) =
      bigEndian value.toNat (w / 8) := by
    rw [hton, convert_eq, ← hton, bytes_hton hw]
  rw [writeInt, hbytes, write_append _ (by simp) hroom hlt, List.take_of_length_le (by simp)]

theorem toNat_signExtend_ofNat {n : ℕ} (h : n < 2 ^ 31) :
    ((BitVec.ofNat 32 n).signExtend 64).toNat = n := by
  have hmsb : (BitVec.ofNat 32 n).msb = false := by
    rw [BitVec.msb_eq_false_iff_two_mul_lt, BitVec.toNat_ofNat]
    omega
  rw [BitVec.signExtend_eq_setWidth_of_msb_false hmsb, BitVec.toNat_setWidth, BitVec.toNat_ofNat]
  omega

theorem writeString_append {var : List Byte} (hvar : var.length < 2 ^ 31)
    (hroom : 4 + var.length ≤ room.length) (hlt : (done ++ room).length < 2 ^ 64) :
    writeString host ⟨done ++ room, done.length⟩ var =
      some ⟨done ++ ((bigEndian var.length 4 ++ var) ++ room.drop (4 + var.length)),
        (done ++ (bigEndian var.length 4 ++ var)).length⟩ := by
  have hsize : host.bytes (hton host (BitVec.ofNat 32 var.length)) = bigEndian var.length 4 := by
    rw [bytes_hton (by decide), BitVec.toNat_ofNat, Nat.mod_eq_of_lt (by omega)]
  have hlen : (done ++ room).length = done.length + room.length := List.length_append
  rw [writeString, hsize, write_append _ (by simp) (by omega) hlt, Option.bind_some,
    List.take_of_length_le (by simp), ← List.append_assoc, toNat_signExtend_ofNat hvar,
    write_append _ (by simp) (by simp; omega) (by simp; omega), List.take_left]
  simp [List.append_assoc]

theorem write_field {f : Field} (hf : f.Readable) (hroom : f.encoded.length ≤ room.length)
    (hlt : (done ++ room).length < 2 ^ 64) :
    f.write host ⟨done ++ room, done.length⟩ =
      some ⟨done ++ (f.encoded ++ room.drop f.encoded.length), (done ++ f.encoded).length⟩ := by
  cases f with
  | int width value =>
    simp only [Field.encoded, length_bigEndian] at hroom ⊢
    exact writeInt_append host done width.supported value hroom hlt
  | string str =>
    have hstr : str.length < 2 ^ 31 := lt_trans hf.2 (by decide)
    simp only [Field.encoded, List.length_append, length_bigEndian] at hroom ⊢
    rw [Field.write, writeString_append host done hstr hroom hlt]
    simp

theorem writeFields_append {fields : List Field} (hf : ∀ f ∈ fields, f.Readable)
    (hroom : (encodedFields fields).length ≤ room.length) (hlt : (done ++ room).length < 2 ^ 64) :
    ∃ rest, writeFields host ⟨done ++ room, done.length⟩ fields =
      some ⟨done ++ (encodedFields fields ++ rest), (done ++ encodedFields fields).length⟩ ∧
      rest.length + (encodedFields fields).length = room.length := by
  induction fields generalizing done room with
  | nil => exact ⟨room, by simp [writeFields, encodedFields], by simp [encodedFields]⟩
  | cons f fields ih =>
    rw [List.forall_mem_cons] at hf
    rw [encodedFields_cons, List.length_append] at hroom
    have hhead : f.encoded.length ≤ room.length := by omega
    have hwrite := write_field host done hf.1 hhead hlt
    rw [List.length_append] at hlt
    have htail : (encodedFields fields).length ≤ (room.drop f.encoded.length).length := by
      rw [List.length_drop]
      omega
    obtain ⟨rest, hrest, hlen⟩ := ih (done ++ f.encoded) hf.2 htail
      (by simp only [List.length_append, List.length_drop]; omega)
    refine ⟨rest, ?_, ?_⟩
    · rw [writeFields, hwrite, Option.bind_some, ← List.append_assoc, hrest]
      simp only [encodedFields_cons, List.append_assoc]
    · rw [List.length_drop] at hlen
      rw [encodedFields_cons, List.length_append]
      omega

end Write

section Read

variable (host : Endian) (done : List Byte) {rest : List Byte}

theorem read_append {bytes : List Byte} {room : ℕ} (hroom : bytes.length ≤ room)
    (hlt : (done ++ (bytes ++ rest)).length < 2 ^ 64) :
    read ⟨done ++ (bytes ++ rest), done.length⟩ room bytes.length =
      some (⟨done ++ (bytes ++ rest), (done ++ bytes).length⟩, some bytes) := by
  have hlen : (done ++ (bytes ++ rest)).length = done.length + (bytes.length + rest.length) := by
    rw [List.length_append, List.length_append]
  have hmod : (bytes.length + done.length) % 2 ^ 64 = bytes.length + done.length :=
    Nat.mod_eq_of_lt (by omega)
  rw [read, if_neg (by dsimp only; omega), if_pos ⟨hroom, by dsimp only; omega⟩]
  simp

theorem readInt_append {w : ℕ} (hw : w ∈ [8, 16, 32, 64]) (value var : BitVec w)
    (hlt : (done ++ (bigEndian value.toNat (w / 8) ++ rest)).length < 2 ^ 64) :
    readInt host ⟨done ++ (bigEndian value.toNat (w / 8) ++ rest), done.length⟩ var =
      some (⟨done ++ (bigEndian value.toNat (w / 8) ++ rest),
        (done ++ bigEndian value.toNat (w / 8)).length⟩, value) := by
  have hroom : (bigEndian value.toNat (w / 8)).length ≤ w / 8 := by rw [length_bigEndian]
  have hread := read_append done hroom hlt
  rw [length_bigEndian] at hread
  rw [readInt, hread, Option.map_some]
  dsimp only
  rw [convert_eq, ntoh_ofBytes hw host (length_bigEndian _ _), ofBigEndian_bigEndian,
    ← pow_width hw, Nat.mod_eq_of_lt value.isLt, BitVec.ofNat_toNat, BitVec.setWidth_eq]

theorem assign_temp_eq {str : List Byte} (hstr : (Field.string str).Readable) :
    assign (temp (some str)) = some str := by
  obtain ⟨hzero, hlen⟩ := hstr
  obtain ⟨n, hn⟩ := Nat.exists_eq_add_of_lt hlen
  have htemp : temp (some str) = str ++ 0 :: List.replicate n 0 := by
    rw [temp, Option.getD_some, ← List.replicate_succ]
    congr 2
    omega
  rw [htemp, assign, if_pos (by simp), cString_append hzero]

theorem assign_temp_readable {copied : Option (List Byte)} {str : List Byte}
    (hroom : (copied.getD []).length ≤ sstreamStringSizeMax)
    (h : assign (temp copied) = some str) : (Field.string str).Readable := by
  have hlen : (temp copied).length = sstreamStringSizeMax := by
    rw [temp, List.length_append, List.length_replicate]
    omega
  rw [assign] at h
  split at h
  · rename_i hzero
    obtain rfl := Option.some.inj h
    exact ⟨zero_notMem_cString _, hlen ▸ length_cString_lt hzero⟩
  · exact nomatch h

theorem length_read {s t : Stringstream} {room size : ℕ} {copied : Option (List Byte)}
    (h : s.read room size = some (t, copied)) : (copied.getD []).length ≤ room := by
  rw [read] at h
  split at h
  · simp only [Option.some.injEq, Prod.mk.injEq] at h
    simp [← h.2]
  · split at h
    · rename_i hsize
      simp only [Option.some.injEq, Prod.mk.injEq] at h
      rw [← h.2, Option.getD_some, List.length_take]
      omega
    · exact nomatch h

theorem readString_readable {s t : Stringstream} {str : List Byte}
    (h : readString host s = some (t, str)) : (Field.string str).Readable := by
  obtain ⟨r, -, h⟩ := Option.bind_eq_some_iff.mp h
  split at h
  · obtain ⟨copy, hread, h⟩ := Option.bind_eq_some_iff.mp h
    obtain ⟨str', hassign, heq⟩ := Option.map_eq_some_iff.mp h
    obtain ⟨-, rfl⟩ := Prod.mk.inj heq
    exact assign_temp_readable (length_read hread) hassign
  · obtain ⟨str', hassign, heq⟩ := Option.map_eq_some_iff.mp h
    obtain ⟨-, rfl⟩ := Prod.mk.inj heq
    exact assign_temp_readable (Nat.zero_le _) hassign

theorem readString_size {u : List Byte} {size : ℕ} (hsize : size < 2 ^ 31)
    (hlt : (done ++ (bigEndian size 4 ++ u)).length < 2 ^ 64) :
    let s : Stringstream := ⟨done ++ (bigEndian size 4 ++ u), (done ++ bigEndian size 4).length⟩
    readString host ⟨done ++ (bigEndian size 4 ++ u), done.length⟩ =
      if 0 < size then
        (s.read sstreamStringSizeMax size).bind fun t => (assign (temp t.2)).map (t.1, ·)
      else (assign (temp none)).map (s, ·) := by
  have hnat : (BitVec.ofNat 32 size).toNat = size := by
    rw [BitVec.toNat_ofNat]
    omega
  have hread := readInt_append host done (w := 32) (by decide) (BitVec.ofNat 32 size) 0
    (by rw [hnat]; exact hlt)
  rw [hnat] at hread
  rw [readString, hread, Option.bind_some]
  dsimp only
  rw [(toInt_ofNat_eq_iff size).mpr hsize, hnat]
  simp only [Int.natCast_pos]

theorem readString_append {str : List Byte} (hstr : (Field.string str).Readable)
    (hlt : (done ++ ((bigEndian str.length 4 ++ str) ++ rest)).length < 2 ^ 64) :
    readString host ⟨done ++ ((bigEndian str.length 4 ++ str) ++ rest), done.length⟩ =
      some (⟨done ++ ((bigEndian str.length 4 ++ str) ++ rest),
        (done ++ (bigEndian str.length 4 ++ str)).length⟩, str) := by
  rw [List.append_assoc] at hlt ⊢
  rw [readString_size host done (lt_trans hstr.2 (by decide)) hlt]
  split
  · have hread := read_append (done ++ bigEndian str.length 4) hstr.2.le
      (by rwa [List.append_assoc])
    rw [List.append_assoc] at hread
    rw [hread, Option.bind_some, assign_temp_eq hstr]
    simp
  · obtain rfl : str = [] := List.length_eq_zero_iff.mp (by omega)
    change (assign (temp (some []))).map _ = _
    rw [assign_temp_eq hstr]
    simp

/-- A string longer than the array is copied beyond its end. -/
theorem readString_overrun {str : List Byte} (hlong : sstreamStringSizeMax < str.length)
    (hsize : str.length < 2 ^ 31)
    (hlt : (done ++ ((bigEndian str.length 4 ++ str) ++ rest)).length < 2 ^ 64) :
    readString host ⟨done ++ ((bigEndian str.length 4 ++ str) ++ rest), done.length⟩ = none := by
  rw [List.append_assoc] at hlt ⊢
  have hlen := hlt
  simp only [List.length_append, length_bigEndian] at hlen
  rw [readString_size host done hsize hlt, if_pos (by omega), read, if_neg, if_neg (by omega),
    Option.bind_none]
  simp only [List.length_append, length_bigEndian]
  omega

theorem read_field {f var : Field} (hf : f.Readable) (htype : var.type = f.type)
    (hlt : (done ++ (f.encoded ++ rest)).length < 2 ^ 64) :
    var.read host ⟨done ++ (f.encoded ++ rest), done.length⟩ =
      some (⟨done ++ (f.encoded ++ rest), (done ++ f.encoded).length⟩, f) := by
  cases f with
  | int width value =>
    cases var with
    | int width' var =>
      obtain rfl : width' = width := Option.some.inj htype
      rw [Field.read, Field.encoded, readInt_append host done width'.supported value var hlt,
        Option.map_some]
    | string var => exact nomatch htype
  | string str =>
    cases var with
    | int width var => exact nomatch htype
    | string var =>
      rw [Field.read, Field.encoded, readString_append host done hf hlt, Option.map_some]

theorem readFields_append {fields vars : List Field} (hf : ∀ f ∈ fields, f.Readable)
    (htypes : vars.map Field.type = fields.map Field.type)
    (hlt : (done ++ (encodedFields fields ++ rest)).length < 2 ^ 64) :
    readFields host ⟨done ++ (encodedFields fields ++ rest), done.length⟩ vars = some fields := by
  induction fields generalizing done vars with
  | nil =>
    obtain rfl := List.map_eq_nil_iff.mp htypes
    rfl
  | cons f fields ih =>
    obtain ⟨var, vars, rfl, htype, htypes⟩ := List.map_eq_cons_iff.mp htypes
    rw [List.forall_mem_cons] at hf
    rw [encodedFields_cons, List.append_assoc] at hlt ⊢
    have hread := read_field host done hf.1 htype hlt
    have hrest := ih (done ++ f.encoded) hf.2 htypes (by rwa [List.append_assoc])
    rw [List.append_assoc] at hrest
    rw [readFields, hread, Option.bind_some, hrest, Option.map_some]

theorem readFields_readable {s : Stringstream} {fields vars : List Field}
    (h : readFields host s vars = some fields) : ∀ f ∈ fields, f.Readable := by
  induction vars generalizing s fields with
  | nil =>
    obtain rfl := Option.some.inj h
    simp
  | cons var vars ih =>
    obtain ⟨r, hread, h⟩ := Option.bind_eq_some_iff.mp h
    obtain ⟨fields, hfields, rfl⟩ := Option.map_eq_some_iff.mp h
    rw [List.forall_mem_cons]
    refine ⟨?_, ih hfields⟩
    cases var with
    | int width var =>
      obtain ⟨_, -, rfl⟩ := Option.map_eq_some_iff.mp hread
      exact trivial
    | string var =>
      obtain ⟨_, hstr, rfl⟩ := Option.map_eq_some_iff.mp hread
      exact readString_readable host hstr

theorem setPosition_zero {s : Stringstream} (h : s.cur ≤ s.str.length) :
    s.setPosition 0 = ⟨s.str, 0⟩ := by
  rw [setPosition]
  split
  · obtain ⟨str, cur⟩ := s
    obtain rfl : cur = 0 := by
      dsimp only at *
      omega
    rfl
  · rfl

end Read

/-- Fields that fit into the buffer come back, without a copy out of bounds, exactly when no
string holds a null character or fills the array it is read into. -/
theorem stringstream_roundTrip_iff (host : Endian) (str : List Byte) (fields vars : List Field)
    (hsize : str.length < 2 ^ 64) (hfits : (encodedFields fields).length ≤ str.length)
    (htypes : vars.map Field.type = fields.map Field.type) :
    roundTrip host str fields vars = some fields ↔ ∀ f ∈ fields, f.Readable := by
  constructor
  · intro h
    obtain ⟨s, -, hread⟩ := Option.bind_eq_some_iff.mp h
    exact readFields_readable host hread
  · intro hf
    obtain ⟨rest, hwrite, hlen⟩ := writeFields_append host [] hf hfits hsize
    have hlt : ([] ++ (encodedFields fields ++ rest)).length < 2 ^ 64 := by
      rw [List.nil_append, List.length_append]
      omega
    have hread := readFields_append host [] hf htypes hlt
    have hnew : writeFields host (new str) fields =
        some ⟨encodedFields fields ++ rest, (encodedFields fields).length⟩ := hwrite
    rw [roundTrip, hnew, Option.bind_some, setPosition_zero (by simp)]
    exact hread

/-- An integer and a string in a buffer that they fill. -/
theorem stringstream_roundTrip_iff_full :
    roundTrip .little (List.replicate 8 0) [.int .w16 0x1234, .string [0x61, 0x62]]
      [.int .w16 0, .string []] = some [.int .w16 0x1234, .string [0x61, 0x62]] :=
  (stringstream_roundTrip_iff .little _ _ _ (by decide) (by decide) (by decide)).mpr (by decide)

theorem roundTrip_overrun (host : Endian) {str text : List Byte} (var : List Byte)
    (hsize : str.length < 2 ^ 64) (hfits : 4 + text.length ≤ str.length)
    (hlong : sstreamStringSizeMax < text.length) (htext : text.length < 2 ^ 31) :
    roundTrip host str [.string text] [.string var] = none := by
  have hwrite := writeString_append host [] htext hfits hsize
  have hlt : ([] ++ ((bigEndian text.length 4 ++ text) ++ str.drop (4 + text.length))).length <
      2 ^ 64 := by
    simp only [List.nil_append, List.length_append, length_bigEndian, List.length_drop]
    omega
  have hread := readString_overrun host [] hlong htext hlt
  simp only [List.nil_append] at hwrite hread
  have hnew : writeFields host (new str) [.string text] = some _ :=
    congrArg (Option.bind · some) hwrite
  rw [roundTrip, hnew, Option.bind_some, setPosition_zero (by simp), readFields, Field.read]
  rw [List.length_nil] at hread
  rw [hread]
  rfl

/-- A null character cuts the string off, and a string longer than the array overruns it. -/
theorem stringstream_loses_string :
    roundTrip .little (List.replicate 8 0) [.string [0x61, 0, 0x62]] [.string []] =
        some [.string [0x61]] ∧
      roundTrip .little (List.replicate 10245 0) [.string (List.replicate 10241 0x61)]
        [.string []] = none := by
  refine ⟨by decide, roundTrip_overrun .little [] ?_ ?_ ?_ ?_⟩
  all_goals simp only [List.length_replicate, sstreamStringSizeMax]; omega

end Stringstream

end Plain
