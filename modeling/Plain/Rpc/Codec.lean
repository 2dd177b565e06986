import Mathlib.Data.Finmap
import Plain.Rpc.Integer

/-! # RPC codecs of composed types

How the packer and the unpacker treat strings, byte vectors, containers, tuples and
user objects, given the codecs of their elements. A container is a header with its
size followed by its elements; a user object is a byte vector with its fields.
-/

namespace Plain.Rpc

open Unpacker

/-- How a type is packed, and unpacked over the value of a variable. There is no
result where the program stores outside the variable. -/
structure Codec (α : Type) where
  init : α
  pack : α → List Byte
  unpack : α → Unpacker → Option (α × Unpacker)

section Primitive

def Codec.nullptr : Codec Unit where
  init := ()
  pack _ := [Tag.null.toByte]
  unpack value u := some (value, u.increment 1)

def Codec.bool : Codec Bool where
  init := false
  pack value := if value then [Tag.trueBool.toByte] else [Tag.falseBool.toByte]
  unpack _ u :=
    let (b, u) := u.data
    some (b = Tag.trueBool.toByte, u.increment 1)

def Codec.uint (w : Width) : Codec (BitVec w.bits) :=
  ⟨0, packUint w, fun value u => some (unpackUint w value u)⟩

def Codec.int (w : Width) : Codec (BitVec w.bits) :=
  ⟨0, packInt w, fun value u => some (unpackInt w value u)⟩

end Primitive

section Bytes

def packBytes (value : List Byte) : List Byte :=
  if value.length < 0xff then
    Tag.bin8.toByte :: BitVec.ofNat 8 value.length :: value
  else if value.length < 0xffff then
    Tag.bin16.toByte :: bigEndian value.length 2 ++ value
  else if value.length < 0xffffffff then
    Tag.bin32.toByte :: bigEndian value.length 4 ++ value
  else []

/-- The bytes in front of the cursor, if there are enough of them. -/
def takeBytes (size : ℕ) (value : List Byte) (u : Unpacker) : List Byte × Unpacker :=
  if u.overrun = 0 ∧ size ≤ u.rest.length then (u.rest.take size, u.increment size)
  else (value, { u with error := .outOfRange })

def unpackBytes (value : List Byte) (u : Unpacker) : List Byte × Unpacker :=
  let (b, u) := u.data
  let (binSize, u) :=
    if b = Tag.bin32.toByte then accumulate 4 (0 : BitVec 64) (u.increment 1)
    else if b = Tag.bin16.toByte then accumulate 2 0 (u.increment 1)
    else accumulate 1 0 (u.increment 1)
  takeBytes binSize.toNat value u

def Codec.bytes : Codec (List Byte) where
  init := []
  pack := packBytes
  unpack value u := some (unpackBytes value u)

def packString (value : List Byte) : List Byte :=
  if value.length < 32 then (BitVec.ofNat 8 value.length ||| 0b10100000) :: value
  else if value.length < 0xff then
    Tag.str8.toByte :: BitVec.ofNat 8 value.length :: value
  else if value.length < 0xffff then
    Tag.str16.toByte :: bigEndian value.length 2 ++ value
  else if value.length < 0xffffffff then
    Tag.str32.toByte :: bigEndian value.length 4 ++ value
  else []

def unpackString (value : List Byte) (u : Unpacker) : List Byte × Unpacker :=
  let (b, u) := u.data
  let (strSize, u) :=
    if b = Tag.str32.toByte then accumulate 4 (0 : BitVec 64) (u.increment 1)
    else if b = Tag.str16.toByte then accumulate 2 0 (u.increment 1)
    else if b = Tag.str8.toByte then accumulate 1 0 (u.increment 1)
    else ((b &&& 0b00011111).setWidth 64, u.increment 1)
  takeBytes strSize.toNat value u

/-- A `std::string`, as its characters. -/
def Codec.string : Codec (List Byte) where
  init := []
  pack := packString
  unpack value u := some (unpackString value u)

end Bytes

section Header

/-- The header forms of a kind of container. Small sizes share a byte with the mask. -/
structure Header where
  mask : Byte
  tag16 : Tag
  tag32 : Tag
  tags_ne : tag16.toByte ≠ tag32.toByte
  mask_spec : ∀ n : Fin 16, BitVec.ofNat 8 n ||| mask ≠ tag32.toByte ∧
    BitVec.ofNat 8 n ||| mask ≠ tag16.toByte ∧
    (BitVec.ofNat 8 n ||| mask) &&& 0x0f = BitVec.ofNat 8 n

def Header.array : Header := ⟨0b10010000, .array16, .array32, by decide, by decide⟩

def Header.map : Header := ⟨0b10000000, .map16, .map32, by decide, by decide⟩

/-- The header of a container, unless it is too large to be packed at all. -/
def packSize (h : Header) (size : ℕ) : Option (List Byte) :=
  if size < 16 then some [BitVec.ofNat 8 size ||| h.mask]
  else if size < 0xffff then some (h.tag16.toByte :: bigEndian size 2)
  else if size < 0xffffffff then some (h.tag32.toByte :: bigEndian size 4)
  else none

def unpackSize (h : Header) (u : Unpacker) : BitVec 64 × Unpacker :=
  let (b, u) := u.data
  if b = h.tag32.toByte then accumulate 4 0 (u.increment 1)
  else if b = h.tag16.toByte then accumulate 2 0 (u.increment 1)
  else ((b &&& 0x0f).setWidth 64, u.increment 1)

def unpackMany {ε σ : Type} (unpack : Unpacker → Option (ε × Unpacker)) (store : σ → ε → σ) :
    ℕ → σ → Unpacker → Option (σ × Unpacker)
  | 0, s, u => some (s, u)
  | n + 1, s, u => do
      let (elem, u) ← unpack u
      unpackMany unpack store n (store s elem) u

end Header

namespace Codec

variable {α β κ φ : Type}

section Array

def packArray (c : Codec α) (array : List α) : List Byte :=
  match packSize .array array.length with
  | some header => header ++ array.flatMap c.pack
  | none => []

def unpackArray (c : Codec α) (array : List α) (u : Unpacker) : Option (List α × Unpacker) :=
  let (arraySize, u) := unpackSize .array u
  unpackMany (c.unpack c.init) (fun array val => array ++ [val]) arraySize.toNat array u

/-- `std::vector` and `std::list`. -/
def array (c : Codec α) : Codec (List α) := ⟨[], c.packArray, c.unpackArray⟩

/-- `std::copy` to the start of an array, which must not be shorter than the source. -/
def copyTo {n : ℕ} (vec : List α) (array : Vector α n) : Option (Vector α n) :=
  if vec.length ≤ n then some (Vector.ofFn fun i => vec.getD i array[i]) else none

def unpackStdarray {n : ℕ} (c : Codec α) (array : Vector α n) (u : Unpacker) :
    Option (Vector α n × Unpacker) := do
  let (vec, u) ← c.unpackArray [] u
  let array ← copyTo vec array
  some (array, u)

def stdarray (n : ℕ) (c : Codec α) : Codec (Vector α n) :=
  ⟨Vector.replicate n c.init, fun array => c.packArray array.toList, c.unpackStdarray⟩

end Array

section Map

/-- The order in which a type of map visits its entries. -/
structure Iteration (κ β : Type) where
  entries : Finmap (fun _ : κ => β) → List ((_ : κ) × β)
  coe_entries : ∀ m, (entries m : Multiset ((_ : κ) × β)) = m.entries

variable [DecidableEq κ]

def packMap (it : Iteration κ β) (k : Codec κ) (v : Codec β) (map : Finmap fun _ : κ => β) :
    List Byte :=
  match packSize .map map.entries.card with
  | some header => header ++ (it.entries map).flatMap fun elem => k.pack elem.1 ++ v.pack elem.2
  | none => []

def unpackEntry (k : Codec κ) (v : Codec β) (u : Unpacker) :
    Option (((_ : κ) × β) × Unpacker) := do
  let (key, u) ← k.unpack k.init u
  let (value, u) ← v.unpack v.init u
  some (⟨key, value⟩, u)

def unpackMap (k : Codec κ) (v : Codec β) (map : Finmap fun _ : κ => β) (u : Unpacker) :
    Option ((Finmap fun _ : κ => β) × Unpacker) :=
  let (mapSize, u) := unpackSize .map u
  unpackMany (unpackEntry k v) (fun map elem => map.insert elem.1 elem.2) mapSize.toNat map u

/-- `std::map` and `std::unordered_map`. -/
def map (it : Iteration κ β) (k : Codec κ) (v : Codec β) : Codec (Finmap fun _ : κ => β) :=
  ⟨∅, packMap it k v, unpackMap k v⟩

end Map

section Tuple

def tupleNil : Codec Unit := ⟨(), fun _ => [], fun value u => some (value, u)⟩

/-- The first component of a `std::tuple`, and then the others. -/
def tupleCons (c : Codec α) (cs : Codec β) : Codec (α × β) where
  init := (c.init, cs.init)
  pack value := c.pack value.1 ++ cs.pack value.2
  unpack value u := do
    let (head, u) ← c.unpack value.1 u
    let (others, u) ← cs.unpack value.2 u
    some ((head, others), u)

end Tuple

section Object

/-- A user object whose method `pack` processes these fields. -/
structure Object (φ : Type) where
  fields : φ

/-- The decoder of the fields starts without an error, and its error replaces the one
of the outer decoder. -/
def object (c : Codec φ) : Codec (Object φ) where
  init := ⟨c.init⟩
  pack value := packBytes (c.pack value.fields)
  unpack value u := do
    let (recursiveData, u) := unpackBytes [] u
    let (fields, recursiveUnpacker) ← c.unpack value.fields (.of recursiveData)
    some (⟨fields⟩, { u with error := recursiveUnpacker.error })

end Object

end Codec

end Plain.Rpc
