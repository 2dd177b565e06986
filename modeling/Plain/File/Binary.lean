import Plain.Basic.Endian
import Plain.File.Text

/-! # Binary tables

A table is saved as a head, the column types, the cells and the block of strings. Of the
cells, which take eight bytes each, as many bytes are written as there are cells, and the
reader does not skip the column types before it reads the cells. What is saved can be
opened again only if there are no records.
-/

namespace Plain.Tab

def indentify : BitVec 32 := 0xDDBBCC00

structure FileHead where
  identify : BitVec 32
  fieldNumber : BitVec 32
  recordNumber : BitVec 32
  stringBlockSize : BitVec 32
  deriving DecidableEq, Repr

def headSize : ℕ := 16

def wordBytes {w : ℕ} (n : BitVec w) : List Byte := Endian.little.bytes n

def readWord (w : ℕ) (memory : List Byte) : BitVec w :=
  Endian.little.ofBytes w (memory.take (w / 8))

def readWords (w : ℕ) : ℕ → List Byte → Option (List (BitVec w))
  | 0, _ => some []
  | n + 1, memory =>
      if memory.length < w / 8 then none
      else (readWords w n (memory.drop (w / 8))).map (readWord w memory :: ·)

def FileHead.bytes (head : FileHead) : List Byte :=
  wordBytes head.identify ++ wordBytes head.fieldNumber ++ wordBytes head.recordNumber ++
    wordBytes head.stringBlockSize

def FileHead.read (memory : List Byte) : FileHead :=
  ⟨readWord 32 memory, readWord 32 (memory.drop 4), readWord 32 (memory.drop 8),
    readWord 32 (memory.drop 12)⟩

def FieldType.code : FieldType → BitVec 32
  | .int => 0
  | .float => 1
  | .string => 2

def FieldType.ofCode (code : BitVec 32) : Option FieldType :=
  if code = 0 then some .int
  else if code = 1 then some .float
  else if code = 2 then some .string
  else none

/-- The bytes that are written, unless the number of cells overflows. A table that was opened
has as many types as fields, and its block of strings has the size that it says. -/
def saveTobinary (t : Tab) : Option (List Byte) := do
  let head : FileHead := ⟨indentify, BitVec.ofInt 32 t.fieldNumber,
    BitVec.ofInt 32 t.recordNumber, BitVec.ofInt 32 t.stringBufferSize⟩
  let length ← int32 (t.fieldNumber * t.recordNumber)
  return head.bytes ++ (t.type.flatMap fun type => wordBytes type.code) ++
    (t.dataBuffer.flatMap wordBytes).take length.toNat ++ t.stringBuffer

/-- The size that a head asks for, in the arithmetic of `size_t`. -/
def FileHead.size (head : FileHead) : BitVec 64 :=
  16 + 4 * head.fieldNumber.signExtend 64 +
    8 * head.recordNumber.signExtend 64 * head.fieldNumber.signExtend 64 +
    head.stringBlockSize.signExtend 64

variable (env : Env)

/-- The types as far as they are known, in front of those that were there before. -/
def knownTypes (t : Tab) (codes : List (BitVec 32)) : List FieldType :=
  let known := (codes.map FieldType.ofCode).takeWhile Option.isSome
  known.filterMap id ++
    ((t.type ++ List.replicate codes.length FieldType.int).take codes.length).drop known.length

/-- Addresses for the texts. The place of a cell is not computed from its row. -/
def relocateBinary (fieldTypes : List FieldType) (recordNumber : ℕ)
    (dataBuffer : List FieldData) : Option (List FieldData) :=
  let places := (List.range fieldTypes.length).flatMap fun i =>
    if fieldTypes[i]? = some .string then
      (List.range recordNumber).map fun j => i + fieldTypes.length + j
    else []
  places.foldlM (fun dataBuffer place =>
    if place < dataBuffer.length then
      some (dataBuffer.modify place fun data => data + env.address)
    else none) dataBuffer

/-- The sections behind a head whose size was checked. Nothing is returned when the function
does not return: when an allocation of a negative size throws, the number of cells
overflows, or memory outside the table is accessed. -/
def readSections (t : Tab) (head : FileHead) (memory : List Byte) : Option (Bool × Tab) := do
  let t : Tab := { t with
    recordNumber := head.recordNumber.toInt
    fieldNumber := head.fieldNumber.toInt
    stringBufferSize := head.stringBlockSize.toInt }
  guard (0 ≤ t.stringBufferSize ∧ 0 ≤ t.fieldNumber)
  let codes ← readWords 32 t.fieldNumber.toNat memory
  match codes.mapM FieldType.ofCode with
  | none =>
      return (false, { t with type := knownTypes t codes, address := 0, stringBuffer := [] })
  | some types =>
      let cells ← int32 (t.fieldNumber * t.recordNumber)
      guard (0 ≤ cells)
      let dataBuffer ← readWords 64 cells.toNat memory
      let memory := memory.drop (8 * cells.toNat)
      guard (0 < t.stringBufferSize ∧ t.stringBufferSize.toNat ≤ memory.length)
      let stringBuffer := memory.take (t.stringBufferSize.toNat - 1) ++ [0]
      let dataBuffer ← relocateBinary env types t.recordNumber.toNat dataBuffer
      let t : Tab := { t with
        type := types
        dataBuffer := dataBuffer
        address := env.address
        stringBuffer := stringBuffer }
      let t ← t.createIndex 0
      return (true, t)

def openFromMemoryBinary (t : Tab) (memory : List Byte) : Option (Bool × Tab) :=
  if memory.length < headSize then none
  else
    let head := FileHead.read memory
    if head.identify ≠ indentify then some (false, t)
    else if head.size.toNat > memory.length then some (false, t)
    else readSections env t head (memory.drop headSize)

def openFromMemory (t : Tab) (memory : List Byte) : Option (Bool × Tab) :=
  if memory.length ≥ headSize ∧ readWord 32 memory = indentify then
    openFromMemoryBinary env t memory
  else openFromMemoryText env t memory

section Bytes

@[simp] theorem length_wordBytes {w : ℕ} (n : BitVec w) : (wordBytes n).length = w / 8 := by
  unfold wordBytes Endian.bytes
  rw [List.length_reverse, length_bigEndian]

theorem ofBytes_wordBytes {k : ℕ} (n : BitVec (8 * k)) :
    Endian.little.ofBytes (8 * k) (wordBytes n) = n := by
  unfold Endian.ofBytes wordBytes Endian.bytes
  dsimp only
  rw [List.reverse_reverse, ofBigEndian_bigEndian, Nat.mul_div_cancel_left k (by omega)]
  apply BitVec.eq_of_toNat_eq
  have hpow : 256 ^ k = 2 ^ (8 * k) := by rw [Nat.pow_mul]
  rw [BitVec.toNat_ofNat, hpow, Nat.mod_mod, Nat.mod_eq_of_lt n.isLt]

theorem readWord_wordBytes {k : ℕ} (n : BitVec (8 * k)) (rest : List Byte) :
    readWord (8 * k) (wordBytes n ++ rest) = n := by
  unfold readWord
  rw [List.take_left' (length_wordBytes n), ofBytes_wordBytes]

theorem readWords_wordBytes {k : ℕ} (words : List (BitVec (8 * k))) (rest : List Byte) :
    readWords (8 * k) words.length (words.flatMap wordBytes ++ rest) = some words := by
  induction words with
  | nil => rfl
  | cons word words ih =>
    rw [List.length_cons, List.flatMap_cons, List.append_assoc]
    unfold readWords
    rw [if_neg, List.drop_left' (length_wordBytes word), ih, readWord_wordBytes]
    · rfl
    · rw [List.length_append, length_wordBytes]
      omega

theorem FileHead.length_bytes (head : FileHead) : head.bytes.length = headSize := by
  unfold FileHead.bytes headSize
  simp only [List.length_append, length_wordBytes]

theorem FileHead.read_bytes (head : FileHead) (rest : List Byte) :
    FileHead.read (head.bytes ++ rest) = head := by
  obtain ⟨identify, fieldNumber, recordNumber, stringBlockSize⟩ := head
  have hdrop (n : BitVec 32) (l : List Byte) : (wordBytes n ++ l).drop 4 = l :=
    List.drop_left' (length_wordBytes n)
  have hread (n : BitVec 32) (l : List Byte) : readWord 32 (wordBytes n ++ l) = n :=
    readWord_wordBytes (k := 4) n l
  have h8 (l : List Byte) : l.drop 8 = (l.drop 4).drop 4 := by rw [List.drop_drop]
  have h12 (l : List Byte) : l.drop 12 = (l.drop 8).drop 4 := by rw [List.drop_drop]
  unfold FileHead.read FileHead.bytes
  simp only [List.append_assoc, h12, h8, hdrop, hread]

end Bytes

section RoundTrip

variable {env : Env} {t : Tab}

theorem saveTobinary_eq_some {bytes : List Byte} (h : t.saveTobinary = some bytes) :
    t.fieldNumber * t.recordNumber < 2 ^ 31 ∧
      bytes = FileHead.bytes ⟨indentify, BitVec.ofInt 32 t.fieldNumber,
          BitVec.ofInt 32 t.recordNumber, BitVec.ofInt 32 t.stringBufferSize⟩ ++
        ((t.type.flatMap fun type => wordBytes type.code) ++
          ((t.dataBuffer.flatMap wordBytes).take (t.fieldNumber * t.recordNumber).toNat ++
            t.stringBuffer)) := by
  unfold saveTobinary at h
  simp only [Option.bind_eq_bind, Option.bind_eq_some_iff, int32_eq_some_iff] at h
  obtain ⟨_, ⟨rfl, _, hlt⟩, he⟩ := h
  refine ⟨hlt, ?_⟩
  rw [← Option.some.inj he]
  simp only [List.append_assoc]

theorem saveTobinary_of_zero (h : t.recordNumber = 0) :
    t.saveTobinary = some (FileHead.bytes ⟨indentify, BitVec.ofInt 32 t.fieldNumber,
        BitVec.ofInt 32 t.recordNumber, BitVec.ofInt 32 t.stringBufferSize⟩ ++
      ((t.type.flatMap fun type => wordBytes type.code) ++ t.stringBuffer)) := by
  have hcells : int32 (t.fieldNumber * t.recordNumber) = some 0 := by
    rw [h, mul_zero]
    rfl
  unfold saveTobinary
  dsimp only
  rw [hcells, Option.bind_eq_bind, Option.bind_some, Int.toNat_zero, List.take_zero,
    List.append_nil, List.append_assoc]
  rfl

theorem length_flatMap_wordBytes {α : Type} {w : ℕ} (f : α → BitVec w) (l : List α) :
    (l.flatMap fun a => wordBytes (f a)).length = l.length * (w / 8) :=
  length_flatMap_row fun _ _ => length_wordBytes _

/-- The size that a head asks for, if nothing in it overflows. -/
theorem FileHead.toNat_size {f r b : ℕ} (hf : f < 2 ^ 31) (hr : r < 2 ^ 31) (hb : b < 2 ^ 31)
    (hlt : f * r < 2 ^ 31) :
    (FileHead.size ⟨indentify, BitVec.ofInt 32 f, BitVec.ofInt 32 r,
      BitVec.ofInt 32 b⟩).toNat = 16 + 4 * f + 8 * (f * r) + b := by
  have hmul : 8 * r % 2 ^ 64 * f = 8 * (f * r) := by
    rw [Nat.mod_eq_of_lt (by omega), Nat.mul_assoc, Nat.mul_comm r f]
  have h16 : (16 : BitVec 64).toNat = 16 := rfl
  have h4 : (4 : BitVec 64).toNat = 4 := rfl
  have h8 : (8 : BitVec 64).toNat = 8 := rfl
  unfold FileHead.size
  simp only [BitVec.ofInt_natCast, BitVec.toNat_add, BitVec.toNat_mul, h16, h4, h8,
    toNat_signExtend_place hf, toNat_signExtend_place hr, toNat_signExtend_place hb, hmul]
  omega

/-- The same number of rows and columns, the same types, and the same values everywhere. -/
def SameTable (t t' : Tab) : Prop :=
  t'.fieldNumber = t.fieldNumber ∧ t'.recordNumber = t.recordNumber ∧ t'.type = t.type ∧
    ∀ (r c : ℕ) type, r < t.recordNumber → t.type[c]? = some type →
      ∃ data data', t.searchPosition r c = some (some data) ∧
        t'.searchPosition r c = some (some data') ∧
        if type = .string then
          ∃ text, t.stringValue data = some text ∧ t'.stringValue data' = some text
        else data'.half = data.half

/-- What was saved is opened in a new table, and gives the same table. -/
def RoundTrips (env : Env) (t : Tab) : Prop :=
  ∃ bytes t', t.saveTobinary = some bytes ∧ openFromMemory env new bytes = some (true, t') ∧
    SameTable t t'

theorem toInt_ofInt {n : ℕ} (h : n < 2 ^ 31) : (BitVec.ofInt 32 n).toInt = n := by
  rw [BitVec.ofInt_natCast]
  exact (toInt_ofNat_eq_iff n).mpr h

theorem mapM_ofCode (types : List FieldType) :
    (types.map FieldType.code).mapM FieldType.ofCode = some types := by
  induction types with
  | nil => rfl
  | cons type types ih =>
    have hcode : FieldType.ofCode type.code = some type := by cases type <;> rfl
    rw [List.map_cons, List.mapM_cons, hcode, ih]
    rfl

theorem guard_eq_some {p : Prop} [Decidable p] (h : p) : (guard p : Option Unit) = some () :=
  if_pos h

theorem relocateBinary_zero (env : Env) (types : List FieldType)
    (dataBuffer : List FieldData) : relocateBinary env types 0 dataBuffer = some dataBuffer := by
  unfold relocateBinary
  have hplaces : ((List.range types.length).flatMap fun i =>
      if types[i]? = some .string then
        (List.range 0).map fun j => i + types.length + j else []) = [] := by
    rw [List.flatMap_eq_nil_iff]
    intro i _
    split <;> rfl
  rw [hplaces]
  rfl

theorem openFromMemory_eq (env : Env) (t : Tab) {head : FileHead}
    (hhead : head.identify = indentify) (rest : List Byte) :
    openFromMemory env t (head.bytes ++ rest) =
      openFromMemoryBinary env t (head.bytes ++ rest) := by
  have hlen : headSize ≤ (head.bytes ++ rest).length := by
    rw [List.length_append, head.length_bytes]
    omega
  have hread : readWord 32 (head.bytes ++ rest) = indentify := by
    have hidentify := congrArg FileHead.identify (head.read_bytes rest)
    exact hidentify.trans hhead
  unfold openFromMemory
  rw [if_pos ⟨hlen, hread⟩]

theorem openFromMemoryBinary_of_lt (env : Env) (t : Tab) {head : FileHead}
    (hhead : head.identify = indentify) {rest : List Byte}
    (hlt : (head.bytes ++ rest).length < head.size.toNat) :
    openFromMemoryBinary env t (head.bytes ++ rest) = some (false, t) := by
  have hlen : ¬ (head.bytes ++ rest).length < headSize := by
    rw [List.length_append, head.length_bytes]
    omega
  unfold openFromMemoryBinary
  rw [if_neg hlen, head.read_bytes]
  dsimp only
  rw [if_neg (not_not.mpr hhead), if_pos hlt]

theorem createIndex_returns {f r : ℕ} (hf : t.fieldNumber = f) (hr : t.recordNumber = r)
    (hpos : 0 < f) (hlen : r * f ≤ t.dataBuffer.length) (hlt : r * f < 2 ^ 31) :
    ∃ t', (do let t ← t.createIndex 0; return (true, t) : Option (Bool × Tab)) =
        some (true, t') ∧
      t'.fieldNumber = t.fieldNumber ∧ t'.recordNumber = t.recordNumber ∧ t'.type = t.type := by
  obtain ⟨t', hindex⟩ : ∃ t', t.createIndex 0 = some t' :=
    createIndex_isSome hf hr hpos hlen hlt
  obtain ⟨hashIndex, rfl⟩ := createIndex_eq_some hindex
  exact ⟨{ t with hashIndex := hashIndex }, by rw [hindex]; rfl, rfl, rfl, rfl⟩

theorem readSections_zero (env : Env) (t : Tab) {types : List FieldType} {b : ℕ}
    {stringBuffer : List Byte} (hpos : 0 < types.length) (hf : types.length < 2 ^ 31)
    (hb : 0 < b) (hb' : b < 2 ^ 31) (hlen : stringBuffer.length = b) :
    ∃ t', readSections env t ⟨indentify, BitVec.ofInt 32 (types.length : ℤ),
          BitVec.ofInt 32 ((0 : ℕ) : ℤ), BitVec.ofInt 32 (b : ℤ)⟩
        ((types.flatMap fun type => wordBytes type.code) ++ stringBuffer) = some (true, t') ∧
      t'.fieldNumber = types.length ∧ t'.recordNumber = 0 ∧ t'.type = types := by
  have hcodes : readWords 32 types.length
      ((types.flatMap fun type => wordBytes type.code) ++ stringBuffer) =
      some (types.map FieldType.code) := by
    have hread := readWords_wordBytes (k := 4) (types.map FieldType.code) stringBuffer
    rwa [List.length_map, List.flatMap_map] at hread
  have hcells : int32 ((types.length : ℤ) * ((0 : ℕ) : ℤ)) = some 0 := by
    rw [Nat.cast_zero, mul_zero]
    rfl
  have hblock : 0 < (b : ℤ) ∧ (b : ℤ).toNat ≤ (List.drop (8 * Int.toNat 0)
      ((types.flatMap fun type => wordBytes type.code) ++ stringBuffer)).length := by
    constructor
    · omega
    · change (b : ℤ).toNat ≤ (List.drop 0 _).length
      rw [Int.toNat_natCast, List.drop_zero, List.length_append, hlen]
      omega
  unfold readSections
  dsimp only
  rw [toInt_ofInt hf, toInt_ofInt hb', toInt_ofInt (n := 0) (by decide),
    guard_eq_some (by omega), Option.bind_eq_bind, Option.bind_some, Int.toNat_natCast, hcodes,
    Option.bind_eq_bind, Option.bind_some, mapM_ofCode]
  dsimp only
  rw [hcells, Option.bind_eq_bind, Option.bind_some, guard_eq_some le_rfl,
    Option.bind_eq_bind, Option.bind_some]
  change ∃ t', (do
    guard _
    let dataBuffer ← relocateBinary env types 0 []
    _ : Option (Bool × Tab)) = _ ∧ _
  rw [guard_eq_some hblock, Option.bind_eq_bind, Option.bind_some, relocateBinary_zero,
    Option.bind_eq_bind, Option.bind_some]
  exact createIndex_returns rfl rfl hpos (by simp) (by simp)

theorem openFromMemoryBinary_zero (env : Env) (t : Tab) {types : List FieldType} {b : ℕ}
    {stringBuffer : List Byte} (hpos : 0 < types.length) (hf : types.length < 2 ^ 31)
    (hb : 0 < b) (hb' : b < 2 ^ 31) (hlen : stringBuffer.length = b) :
    let head : FileHead := ⟨indentify, BitVec.ofInt 32 (types.length : ℤ),
      BitVec.ofInt 32 ((0 : ℕ) : ℤ), BitVec.ofInt 32 (b : ℤ)⟩
    ∃ t', openFromMemoryBinary env t (head.bytes ++
        ((types.flatMap fun type => wordBytes type.code) ++ stringBuffer)) = some (true, t') ∧
      t'.fieldNumber = types.length ∧ t'.recordNumber = 0 ∧ t'.type = types := by
  intro head
  have hsize : head.size.toNat = _ := FileHead.toNat_size hf (by decide) hb' (by simp)
  have htypes := length_flatMap_wordBytes FieldType.code types
  unfold openFromMemoryBinary
  rw [if_neg, head.read_bytes]
  · dsimp only
    rw [if_neg (not_not.mpr rfl), if_neg, List.drop_left' head.length_bytes]
    · exact readSections_zero env t hpos hf hb hb' hlen
    · rw [hsize, List.length_append, List.length_append, head.length_bytes, htypes, hlen]
      unfold headSize
      omega
  · rw [List.length_append, head.length_bytes]
    omega

variable {types : List FieldType} {s : Reading}

theorem Installed.length_stringBuffer {known : List (FieldType × List Byte)}
    (ht : Installed env types s t) (hs : s.Represents env known) :
    t.stringBuffer.length = s.stringBufferSize + 1 := by
  rw [ht.stringBuffer_eq, List.length_cons, hs.size_eq]

/-- A record is saved with less bytes than its cells take, so the file is refused. -/
theorem Installed.refused (ht : Installed env types s t) (hpos : 0 < types.length)
    (hf : types.length < 2 ^ 31) (hsize : s.stringBufferSize < 2 ^ 31 - 1)
    (hblock : t.stringBuffer.length = s.stringBufferSize + 1) (hr : 0 < s.recordNumber)
    {bytes : List Byte} (hsave : t.saveTobinary = some bytes) (env' : Env) :
    openFromMemory env' new bytes = some (false, new) := by
  obtain ⟨hlt, rfl⟩ := saveTobinary_eq_some hsave
  have hsize' : t.stringBufferSize = ((s.stringBufferSize + 1 : ℕ) : ℤ) := ht.stringBufferSize_eq
  rw [ht.fieldNumber_eq, ht.recordNumber_eq, ← Int.natCast_mul] at hlt
  have hlt' : types.length * s.recordNumber < 2 ^ 31 := by omega
  have hle := Nat.le_mul_of_pos_left s.recordNumber hpos
  rw [ht.fieldNumber_eq, ht.recordNumber_eq, ← Int.natCast_mul, hsize', Int.toNat_natCast,
    openFromMemory_eq _ _ rfl, openFromMemoryBinary_of_lt _ _ rfl]
  rw [FileHead.toNat_size hf (by omega) (by omega) hlt', List.length_append,
    FileHead.length_bytes, List.length_append, ht.type_eq,
    length_flatMap_wordBytes FieldType.code, List.length_append, hblock]
  have htake := List.length_take_le (types.length * s.recordNumber)
    (t.dataBuffer.flatMap wordBytes)
  have hcells := Nat.mul_pos hpos hr
  unfold headSize
  omega

theorem Installed.roundTrips (ht : Installed env types s t) (hpos : 0 < types.length)
    (hf : types.length < 2 ^ 31) (hsize : s.stringBufferSize < 2 ^ 31 - 1)
    (hblock : t.stringBuffer.length = s.stringBufferSize + 1) (hr : t.recordNumber = 0)
    (env' : Env) : RoundTrips env' t := by
  obtain ⟨t', hopen, hfield, hrecord, htype⟩ := openFromMemoryBinary_zero env' new hpos hf
    (Nat.succ_pos _) (by omega) hblock
  have hsize' : t.stringBufferSize = ((s.stringBufferSize + 1 : ℕ) : ℤ) := ht.stringBufferSize_eq
  refine ⟨_, t', ?_, (openFromMemory_eq _ _ rfl _).trans hopen, ?_, ?_, ?_, ?_⟩
  · rw [saveTobinary_of_zero hr, ht.fieldNumber_eq, hr, hsize', ht.type_eq]
    rfl
  · rw [hfield, ht.fieldNumber_eq]
  · rw [hrecord, hr]
  · rw [htype, ht.type_eq]
  · intro r c type hlt
    omega

/-- A table that was opened from a text can be saved and opened again exactly when it has no
records. -/
theorem roundTrips_iff (env env' : Env) {memory : List Byte}
    (h : openFromMemoryText env new memory = some (true, t)) :
    RoundTrips env' t ↔ t.recordNumber = 0 := by
  obtain ⟨types, s, known, ht, hne, hf, hs, _, hsize⟩ := openFromMemoryText_eq_true h
  have hpos : 0 < types.length := List.length_pos_iff.mpr hne
  have hf' : types.length < 2 ^ 31 := hf.trans (by decide)
  have hblock := ht.length_stringBuffer hs
  constructor
  · rintro ⟨bytes, t', hsave, hopen, _⟩
    by_contra hr
    rw [ht.recordNumber_eq] at hr
    rw [ht.refused hpos hf' hsize hblock (by omega) hsave] at hopen
    cases hopen
  · intro hr
    exact ht.roundTrips hpos hf' hsize hblock hr env'

/-- A table of one column and no records is saved and opened again. -/
theorem roundTrips_iff_empty :
    let env : Env := ⟨fun _ => 0, fun _ => 0, 4096, fun _ => 0⟩
    let t : Tab := ⟨[.int], 0, 1, [], [[0x6E]], 4096, [0], 1, [], -1⟩
    openFromMemoryText env new [0x49, 0x4E, 0x54, 0x0A, 0x6E, 0x0A] = some (true, t) ∧
      RoundTrips env t := by
  intro env t
  have h : openFromMemoryText env new [0x49, 0x4E, 0x54, 0x0A, 0x6E, 0x0A] = some (true, t) := by
    decide +kernel
  exact ⟨h, (roundTrips_iff env env h).mpr rfl⟩

/-- A table of one column and one record is saved, but what was saved is refused. -/
theorem saved_record_refused :
    let env : Env := ⟨fun _ => 0, fun _ => 0, 4096, fun _ => 0⟩
    let t : Tab := ⟨[.int], 1, 1, [0], [[0x6E]], 4096, [0], 1, [(0, 0)], -1⟩
    openFromMemoryText env new [0x49, 0x4E, 0x54, 0x0A, 0x6E, 0x0A, 0x30] = some (true, t) ∧
      t.saveTobinary.bind (openFromMemory env new) = some (false, new) := by
  decide +kernel

end RoundTrip

section SizeCheck

/-- The size of a head and of the sections that it describes, without overflow. -/
def FileHead.exactSize (head : FileHead) : ℤ :=
  16 + 4 * head.fieldNumber.toInt + 8 * head.recordNumber.toInt * head.fieldNumber.toInt +
    head.stringBlockSize.toInt

theorem FileHead.toNat_size_eq (head : FileHead) :
    (head.size.toNat : ℤ) = head.exactSize % 2 ^ 64 := by
  have hsize : head.size = BitVec.ofInt 64 head.exactSize := by
    unfold FileHead.size FileHead.exactSize BitVec.signExtend
    simp only [BitVec.ofInt_add, BitVec.ofInt_mul]
    rfl
  rw [hsize, BitVec.toNat_ofInt]
  omega

/-- Numbers that describe sections: none is negative, and there is a block of strings. -/
def FileHead.Sensible (head : FileHead) : Prop :=
  0 ≤ head.fieldNumber.toInt ∧ 0 ≤ head.recordNumber.toInt ∧ 0 < head.stringBlockSize.toInt

instance (head : FileHead) : Decidable head.Sensible := inferInstanceAs (Decidable (_ ∧ _ ∧ _))

/-- The words of the head, without a sign, are below two to the 31, the last is not zero, and the
sizes of the sections fit. -/
def FileHead.Fits (head : FileHead) : Prop :=
  head.fieldNumber.toNat < 2 ^ 31 ∧ head.recordNumber.toNat < 2 ^ 31 ∧
    (0 < head.stringBlockSize.toNat ∧ head.stringBlockSize.toNat < 2 ^ 31) ∧
    16 + 4 * head.fieldNumber.toNat + 8 * head.recordNumber.toNat * head.fieldNumber.toNat +
      head.stringBlockSize.toNat < 2 ^ 64

instance (head : FileHead) : Decidable head.Fits := inferInstanceAs (Decidable (_ ∧ _ ∧ _ ∧ _))

theorem toInt_nonneg_iff (x : BitVec 32) : 0 ≤ x.toInt ↔ x.toNat < 2 ^ 31 := by
  have hcond := x.toInt_eq_toNat_cond
  have hlt := x.isLt
  split at hcond <;> omega

theorem toInt_eq_toNat {x : BitVec 32} (h : x.toNat < 2 ^ 31) : x.toInt = x.toNat := by
  rw [x.toInt_eq_toNat_cond, if_pos (by omega)]

theorem FileHead.fits_iff (head : FileHead) :
    head.Fits ↔ head.Sensible ∧ head.exactSize < 2 ^ 64 := by
  have hblock : 0 < head.stringBlockSize.toInt ↔
      0 < head.stringBlockSize.toNat ∧ head.stringBlockSize.toNat < 2 ^ 31 := by
    have hcond := head.stringBlockSize.toInt_eq_toNat_cond
    have hlt := head.stringBlockSize.isLt
    split at hcond <;> omega
  unfold Fits Sensible
  rw [toInt_nonneg_iff, toInt_nonneg_iff, hblock, and_assoc (b := _ ∧ _ ∧ _),
    and_assoc (b := _ ∧ _)]
  refine and_congr_right fun hf => and_congr_right fun hr => and_congr_right fun hb => ?_
  rw [exactSize, toInt_eq_toNat hf, toInt_eq_toNat hr, toInt_eq_toNat hb.2]
  norm_cast

/-- A table whose size passes the check has its sections in memory, with a size that was computed
without overflow, exactly when the words of its head fit. The check itself looks at none of
them. -/
theorem size_check_iff (env : Env) (t : Tab) {memory : List Byte}
    (hmagic : (FileHead.read memory).identify = indentify)
    (hcheck : (FileHead.read memory).size.toNat ≤ memory.length) :
    let head := FileHead.read memory
    (headSize ≤ memory.length →
        openFromMemoryBinary env t memory = readSections env t head (memory.drop headSize)) ∧
      (head.Sensible ∧ head.exactSize ≤ memory.length ∧
          (head.size.toNat : ℤ) = head.exactSize ↔ head.Fits) := by
  intro head
  constructor
  · intro hlen
    unfold openFromMemoryBinary
    rw [if_neg (Nat.not_lt.mpr hlen)]
    dsimp only
    rw [if_neg (not_not_intro hmagic), if_neg (Nat.not_lt.mpr hcheck)]
  · have hsize := head.toNat_size_eq
    have hlt := head.size.isLt
    rw [head.fits_iff]
    refine and_congr_right fun hsensible => ⟨fun h => by omega, fun h => ?_⟩
    obtain ⟨hfield, hrecord, hblock⟩ := hsensible
    have hcells := Int.mul_nonneg hrecord hfield
    have hexact : (head.size.toNat : ℤ) = head.exactSize := by
      rw [hsize]
      unfold FileHead.exactSize at h ⊢
      rw [mul_assoc] at h ⊢
      exact Int.emod_eq_of_lt (by omega) h
    exact ⟨hexact ▸ Int.ofNat_le.mpr hcheck, hexact⟩

theorem size_check_iff_string_block :
    let head := FileHead.read (FileHead.bytes ⟨indentify, 0, 0, 1⟩ ++ [0])
    head.Sensible ∧ head.exactSize ≤ (FileHead.bytes ⟨indentify, 0, 0, 1⟩ ++ [0]).length ∧
      (head.size.toNat : ℤ) = head.exactSize :=
  (size_check_iff ⟨fun _ => 0, fun _ => 0, 0, fun _ => 0⟩ new (by decide) (by decide)).2.mpr
    (by decide)

/-- Heads of sixteen bytes that pass the check: one has no block of strings, and the sections of the
other take almost two to the 64 bytes. -/
theorem size_check_passes :
    let empty : FileHead := ⟨indentify, 0, 0, 0⟩
    let huge : FileHead := ⟨indentify, 0x7fffffff, 0x40000000, 1⟩
    (FileHead.read empty.bytes = empty ∧ empty.size.toNat ≤ empty.bytes.length ∧
        ¬ empty.Sensible) ∧
      FileHead.read huge.bytes = huge ∧ huge.size.toNat ≤ huge.bytes.length ∧ huge.Sensible ∧
        huge.exactSize = 2 ^ 64 + 13 ∧ ¬ huge.exactSize ≤ huge.bytes.length := by
  decide

end SizeCheck

end Plain.Tab
