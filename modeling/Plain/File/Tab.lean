import Plain.Basic.Explode
import Plain.Foundation.Int32

/-! # Tables

A table is read from a text: a line of column types, a line of column names, and lines of
records, with tabs between the cells. The cells lie row by row in one buffer, each in eight
bytes that hold a number or the address of a text. Equal texts share one place in a block
of strings. An offset into the block is stored first, and turned into an address once the
block is there.
-/

namespace Plain

namespace Tab

inductive FieldType where
  | int | float | string
  deriving DecidableEq, Repr

/-- The eight bytes of the union `field_data`, on a machine that has the least significant
byte of a number first. -/
abbrev FieldData := BitVec 64

namespace FieldData

/-- The bytes an `int` or a `float` leaves unset are what they were before. -/
def ofHalf (unset value : BitVec 32) : FieldData := unset ++ value

def half (data : FieldData) : BitVec 32 := data.setWidth 32

end FieldData

/-- What a table depends on: the functions of the C library, the place of the block of
strings, and what a new union holds before it is set. -/
structure Env where
  atoi : List Byte → BitVec 32
  atof : List Byte → BitVec 32
  address : BitVec 64
  unset : ℕ → BitVec 32

end Tab

/-- A table with its block of strings and the place of that block. The index gives for a key
the place of the first cell of a record. -/
structure Tab where
  type : List Tab.FieldType
  recordNumber : ℤ
  fieldNumber : ℤ
  dataBuffer : List Tab.FieldData
  fieldnames : List (List Byte)
  address : BitVec 64
  stringBuffer : List Byte
  stringBufferSize : ℤ
  hashIndex : List (BitVec 32 × ℤ)
  indexColumn : ℤ
  deriving DecidableEq, Repr

namespace Tab

/-- A table that has not been opened, with `INDEX_INVALID`. -/
def new : Tab := ⟨[], 0, 0, [], [], 0, [], 0, [], -1⟩

def cellAt (dataBuffer : List FieldData) (position : ℤ) : Option FieldData :=
  if position < 0 then none else dataBuffer[position.toNat]?

/-- A null pointer or a cell, unless the position overflows or is outside the buffer. -/
def searchPosition (t : Tab) (line column : ℤ) : Option (Option FieldData) := do
  let offset ← int32 (line * t.fieldNumber)
  let position ← int32 (offset + column)
  if line < 0 ∨ position > (BitVec.ofNat 32 t.dataBuffer.length).toInt then return none
  let data ← cellAt t.dataBuffer position
  return some data

/-- The text at the address in a cell, if that is in the block of strings. -/
def stringValue (t : Tab) (data : FieldData) : Option (List Byte) :=
  let offset := (data - t.address).toNat
  if offset < t.stringBuffer.length then
    some ((t.stringBuffer.drop offset).takeWhile (· ≠ 0))
  else none

/-- The records are indexed by their first column, whatever the column. A key that is there
already keeps its record: `AssertEx` only reports it. -/
def createIndex (t : Tab) (column : ℤ) : Option Tab :=
  if column < 0 ∨ column > t.fieldNumber ∨ t.indexColumn = column then some t
  else do
    let hashIndex ← (List.range t.recordNumber.toNat).foldlM (fun index (i : ℕ) => do
      let position ← int32 (i * t.fieldNumber)
      let data ← cellAt t.dataBuffer position
      return if (index.lookup data.half).isSome then index
        else index ++ [(data.half, position)]) []
    return { t with hashIndex := hashIndex }

section Text

def tab : Byte := 0x09

def lineFeed : Byte := 0x0A

def carriageReturn : Byte := 0x0D

def isLineEnd (c : Byte) : Bool := c = carriageReturn ∨ c = lineFeed

def lineSize : ℕ := 1024 * 10

def getLineFromMemory (size : ℕ) (memory : List Byte) : Option (List Byte × List Byte) :=
  if memory = [] ∨ memory.head? = some 0 then none
  else
    let line := (memory.take (size - 1)).takeWhile fun c => c ≠ 0 && !isLineEnd c
    some (line, (memory.drop line.length).dropWhile isLineEnd)

/-- The lines that are read until there is none. Every line takes a byte at least. -/
def memoryLines : ℕ → List Byte → List (List Byte)
  | 0, _ => []
  | bytes + 1, memory =>
      match getLineFromMemory lineSize memory with
      | none => []
      | some (line, memory) => line :: memoryLines bytes memory

def FieldType.ofText (text : List Byte) : Option FieldType :=
  if text = [0x49, 0x4E, 0x54] then some .int
  else if text = [0x46, 0x4C, 0x4F, 0x41, 0x54] then some .float
  else if text = [0x53, 0x54, 0x52, 0x49, 0x4E, 0x47] then some .string
  else none

/-- The locals of `open_from_memory_text`, and the buffer it appends to. -/
structure Reading where
  dataBuffer : List FieldData
  stringBuffer : List (List Byte × ℕ)
  mapStringBuffer : List (List Byte × ℕ)
  stringBufferSize : ℕ
  recordNumber : ℕ
  deriving DecidableEq, Repr

variable (env : Env)

namespace Reading

def new (dataBuffer : List FieldData) : Reading := ⟨dataBuffer, [], [], 0, 0⟩

def pushBack (s : Reading) (value : BitVec 32) : Reading :=
  { s with
    dataBuffer := s.dataBuffer ++ [FieldData.ofHalf (env.unset s.dataBuffer.length) value] }

/-- One cell of a record. The conversion of its character set is not compiled in. -/
def addCell (s : Reading) (cell : FieldType × List Byte) : Reading :=
  match cell.1 with
  | .int => s.pushBack env (env.atoi cell.2)
  | .float => s.pushBack env (env.atof cell.2)
  | .string =>
      match s.mapStringBuffer.lookup cell.2 with
      | none =>
          let value := BitVec.ofNat 32 (s.stringBufferSize + 1)
          let s := { s with
            stringBuffer := s.stringBuffer ++ [(cell.2, s.stringBufferSize)]
            mapStringBuffer := (cell.2, s.stringBuffer.length) :: s.mapStringBuffer
            stringBufferSize := s.stringBufferSize + (cell.2.length + 1) }
          s.pushBack env value
      | some k =>
          s.pushBack env (BitVec.ofNat 32 ((s.stringBuffer.getD k ([], 0)).2 + 1))

/-- A comment, an empty line and a line with an empty first cell are skipped. Missing cells
are empty, and supernumerary ones are not looked at. -/
def addRecord (types : List FieldType) (s : Reading) (line : List Byte) : Option Reading := do
  if line.head? = some 0x23 then return s
  let result ← explode line [tab] true false
  if result = [] then return s
  let result := result ++ List.replicate (types.length - result.length) []
  if result.getD 0 [] = [] then return s
  let s := (types.zip result).foldl (addCell env) s
  return { s with recordNumber := s.recordNumber + 1 }

end Reading

def addAddress (data : FieldData) : FieldData := env.address + data.half.signExtend 64

/-- The loop over the records of one column, for a number of rounds. Its counter has sixteen
bits. -/
def relocateColumn (width recordNumber m : ℕ) :
    ℕ → BitVec 16 → List FieldData → Option (List FieldData)
  | 0, _, _ => none
  | rounds + 1, n, dataBuffer =>
      if n.toNat < recordNumber then
        relocateColumn width recordNumber m rounds (n + 1)
          (dataBuffer.modify (n.toNat * width + m) (addAddress env))
      else some dataBuffer

/-- The loop over the columns, whose counter has sixteen bits too. The last of the rounds for
the records is the test that ends their loop. -/
def relocateColumns (types : List FieldType) (recordNumber : ℕ) :
    ℕ → BitVec 16 → List FieldData → Option (List FieldData)
  | 0, _, _ => none
  | rounds + 1, m, dataBuffer =>
      if m.toNat < types.length then
        if types[m.toNat]? ≠ some .string then
          relocateColumns types recordNumber rounds (m + 1) dataBuffer
        else
          (relocateColumn env types.length recordNumber m.toNat (recordNumber + 1) 0
            dataBuffer).bind (relocateColumns types recordNumber rounds (m + 1))
      else some dataBuffer

/-- Offsets become addresses, unless a counter never gets to the end of its loop. -/
def relocate (types : List FieldType) (recordNumber : ℕ) (dataBuffer : List FieldData) :
    Option (List FieldData) :=
  relocateColumns env types recordNumber (types.length + 1) 0 dataBuffer

/-- The end of `open_from_memory_text`, when all lines are read. -/
def install (t : Tab) (types : List FieldType) (s : Reading) : Option Tab := do
  let recordNumber ← int32 s.recordNumber
  let dataBuffer ← relocate env types s.recordNumber s.dataBuffer
  let t : Tab := { t with
    type := types
    recordNumber := recordNumber
    fieldNumber := types.length
    dataBuffer := dataBuffer
    address := env.address
    stringBuffer := 0 :: s.stringBuffer.flatMap fun entry => entry.1 ++ [0]
    stringBufferSize := s.stringBufferSize + 1 }
  t.createIndex 0

/-- Nothing is returned when the function does not return, or overflows. The names are read
from the first line when there is no second one. -/
def openFromMemoryText (t : Tab) (memory : List Byte) : Option (Bool × Tab) :=
  match getLineFromMemory lineSize memory with
  | none => some (false, t)
  | some (line, memory) => do
      let result ← explode line [tab] true true
      if result = [] then return (false, t)
      match result.mapM FieldType.ofText with
      | none => return (false, t)
      | some types =>
          match getLineFromMemory lineSize memory with
          | none =>
              let fieldnames ← explode line [tab] true true
              return (false, { t with fieldnames := fieldnames })
          | some (line, memory) =>
              let fieldnames ← explode line [tab] true true
              let s ← (memoryLines memory.length memory).foldlM
                (Reading.addRecord env types) (Reading.new t.dataBuffer)
              let t ← install env { t with fieldnames := fieldnames } types s
              return (true, t)

end Text

end Tab

end Plain
