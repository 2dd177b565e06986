import Plain.Rpc.Unpacker

/-! # RPC integers

The encoders and decoders of the eight integer types. A `pack` function gives the
bytes it appends. An `unpack` function gives the value it leaves in its argument
and the moved decoder; those of the wide unsigned types add to the value that was
there before.
-/

namespace Plain.Rpc

inductive Width where
  | w8 | w16 | w32 | w64
  deriving DecidableEq, Repr

def Width.bits : Width → ℕ
  | .w8 => 8
  | .w16 => 16
  | .w32 => 32
  | .w64 => 64

section Pack

/-- The branches of the wide unsigned encoders: a tagged value, or a narrower type. -/
def packWide {w : ℕ} (tag : Tag) (size narrowMax : ℕ) (narrow : BitVec w → List Byte)
    (value : BitVec w) : List Byte :=
  if value.toNat > narrowMax then tag.toByte :: bigEndian value.toNat size else narrow value

def packUint8 (value : BitVec 8) : List Byte :=
  if value ≤ 0x7f then [value] else [Tag.uint8.toByte, value]

def packUint16 : BitVec 16 → List Byte :=
  packWide .uint16 2 0xff fun value => packUint8 (value.setWidth 8)

def packUint32 : BitVec 32 → List Byte :=
  packWide .uint32 4 0xffff fun value => packUint16 (value.setWidth 16)

def packUint64 : BitVec 64 → List Byte :=
  packWide .uint64 8 0xffffffff fun value => packUint32 (value.setWidth 32)

/-- `twos_complement`, computed in the type of `promoted` bits that `std::abs` returns. -/
def twosComplement {w : ℕ} (promoted : ℕ) (value : BitVec w) : BitVec w :=
  if value.slt 0 then (~~~(value.signExtend promoted).abs + 1).setWidth w else value

def packInt8 (value : BitVec 8) : List Byte :=
  (if value.toInt > 0 ∧ value.toInt < Tag.max.toNat then [Tag.int8.toByte] else []) ++
    [twosComplement 32 value]

def packInt16 (value : BitVec 16) : List Byte :=
  if (value.signExtend 32).abs.slt ((BitVec.intMin 8).signExtend 32).abs then
    packInt8 (value.setWidth 8)
  else Tag.int16.toByte :: bigEndian (twosComplement 32 value).toNat 2

def packInt32 (value : BitVec 32) : List Byte :=
  if value.abs.slt ((BitVec.intMin 16).signExtend 32).abs then packInt16 (value.setWidth 16)
  else Tag.int32.toByte :: bigEndian (twosComplement 32 value).toNat 4

/-- The bound is an `int`, so `std::abs` of the smallest one wraps before it is widened. -/
def packInt64 (value : BitVec 64) : List Byte :=
  if value.abs.slt ((BitVec.intMin 32).abs.signExtend 64) ∧ value ≠ BitVec.intMin 64 then
    packInt32 (value.setWidth 32)
  else Tag.int64.toByte :: bigEndian (twosComplement 64 value).toNat 8

def packUint : (w : Width) → BitVec w.bits → List Byte
  | .w8 => packUint8
  | .w16 => packUint16
  | .w32 => packUint32
  | .w64 => packUint64

def packInt : (w : Width) → BitVec w.bits → List Byte
  | .w8 => packInt8
  | .w16 => packInt16
  | .w32 => packInt32
  | .w64 => packInt64

end Pack

section Unpack

open Unpacker

def widen {w : ℕ} (r : Byte × Unpacker) : BitVec w × Unpacker := (r.1.setWidth w, r.2)

def widenSigned {v w : ℕ} (r : BitVec v × Unpacker) : BitVec w × Unpacker :=
  (r.1.signExtend w, r.2)

def unpackUint8 (_value : BitVec 8) (u : Unpacker) : BitVec 8 × Unpacker :=
  let (b, u) := u.data
  if b = Tag.uint8.toByte then (u.increment 1).next else u.next

def unpackUint16 (value : BitVec 16) (u : Unpacker) : BitVec 16 × Unpacker :=
  let (b, u) := u.data
  if b = Tag.uint16.toByte then accumulate 2 value (u.increment 1)
  else if b = Tag.uint8.toByte then widen (u.increment 1).next
  else widen u.next

def unpackUint32 (value : BitVec 32) (u : Unpacker) : BitVec 32 × Unpacker :=
  let (b, u) := u.data
  if b = Tag.uint32.toByte then accumulate 4 value (u.increment 1)
  else if b = Tag.uint16.toByte then accumulate 2 value (u.increment 1)
  else if b = Tag.uint8.toByte then widen (u.increment 1).next
  else widen u.next

/-- The branch of a 32-bit value moves the cursor once more, unchecked. -/
def unpackUint64 (value : BitVec 64) (u : Unpacker) : BitVec 64 × Unpacker :=
  let (b, u) := u.data
  if b = Tag.uint64.toByte then accumulate 8 value (u.increment 1)
  else if b = Tag.uint32.toByte then
    let r := accumulate 4 value (u.increment 1)
    (r.1, r.2.advance)
  else if b = Tag.uint16.toByte then accumulate 2 value (u.increment 1)
  else if b = Tag.uint8.toByte then widen (u.increment 1).next
  else widen u.next

/-- The signed value of collected bits, computed in `promoted` bits. -/
def fromBits {w : ℕ} (promoted : ℕ) (r : BitVec w × Unpacker) : BitVec w × Unpacker :=
  (if r.1.msb then
      ((-1 : BitVec promoted) * ((~~~r.1).setWidth promoted + 1)).setWidth w
    else r.1, r.2)

def unpackInt8 (u : Unpacker) : BitVec 8 × Unpacker :=
  let (b, u) := u.data
  if b = Tag.int8.toByte then (u.increment 1).next else u.next

def unpackInt16 (u : Unpacker) : BitVec 16 × Unpacker :=
  let (b, u) := u.data
  if b = Tag.int16.toByte then fromBits 32 (collect 2 0 (u.increment 1))
  else if b = Tag.int8.toByte then widenSigned (unpackInt8 u)
  else widen u.next

def unpackInt32 (u : Unpacker) : BitVec 32 × Unpacker :=
  let (b, u) := u.data
  if b = Tag.int32.toByte then fromBits 64 (collect 4 0 (u.increment 1))
  else if b = Tag.int16.toByte then widenSigned (unpackInt16 u)
  else if b = Tag.int8.toByte then widenSigned (unpackInt8 u)
  else widen u.next

def unpackInt64 (u : Unpacker) : BitVec 64 × Unpacker :=
  let (b, u) := u.data
  if b = Tag.int64.toByte then fromBits 64 (collect 8 0 (u.increment 1))
  else if b = Tag.int32.toByte then widenSigned (unpackInt32 u)
  else if b = Tag.int16.toByte then widenSigned (unpackInt16 u)
  else if b = Tag.int8.toByte then widenSigned (unpackInt8 u)
  else widen u.next

def unpackUint : (w : Width) → BitVec w.bits → Unpacker → BitVec w.bits × Unpacker
  | .w8 => unpackUint8
  | .w16 => unpackUint16
  | .w32 => unpackUint32
  | .w64 => unpackUint64

/-- The signed decoders assign their argument in every branch. -/
def unpackInt : (w : Width) → BitVec w.bits → Unpacker → BitVec w.bits × Unpacker
  | .w8, _ => unpackInt8
  | .w16, _ => unpackInt16
  | .w32, _ => unpackInt32
  | .w64, _ => unpackInt64

end Unpack

end Plain.Rpc
