import Plain.Basic.Endian
import Plain.Basic.Error

/-! # Packets

A packet has an id, bytes with a read position, and flags. Integers are written and
read in network byte order, strings behind their size. Writing needs the writeable
flag and reading the readable one.
-/

namespace Plain.Net

inductive PacketFlag where
  | readable | writeable | callRequest | callResponse | callNotify
  deriving DecidableEq, Repr

def PacketFlag.bit : PacketFlag → BitVec 8
  | readable => 1 <<< 0
  | writeable => 1 <<< 1
  | callRequest => 1 <<< 2
  | callResponse => 1 <<< 3
  | callNotify => 1 <<< 4

structure Packet where
  id : BitVec 16
  data : List Byte
  offset : ℕ
  flag : BitVec 8
  deriving DecidableEq, Repr

def kMaxId : BitVec 16 := 0xffff

def kRpcRequestId : BitVec 16 := kMaxId - 1

def kRpcResponseId : BitVec 16 := kMaxId - 2

def kRpcNotifyId : BitVec 16 := kMaxId - 3

namespace Packet

/-- A default-constructed packet. -/
def new : Packet := ⟨0, [], 0, 0⟩

section Flags

def haveFlag (p : Packet) (type : PacketFlag) : Bool := p.flag &&& type.bit ≠ 0

/-- Clearing any flag clears the readable one. -/
def setFlag (p : Packet) (flag : Bool) (type : PacketFlag) : Packet :=
  if flag then { p with flag := p.flag ||| type.bit }
  else { p with flag := p.flag &&& ~~~PacketFlag.readable.bit }

def setReadable (p : Packet) (flag : Bool) : Packet := p.setFlag flag .readable

def setWriteable (p : Packet) (flag : Bool) : Packet := p.setFlag flag .writeable

def setCallRequest (p : Packet) (flag : Bool) : Packet := p.setFlag flag .callRequest

def setCallResponse (p : Packet) (flag : Bool) : Packet := p.setFlag flag .callResponse

def setCallNotify (p : Packet) (flag : Bool) : Packet := p.setFlag flag .callNotify

def isCallRequest (p : Packet) : Bool := p.haveFlag .callRequest

def isCallResponse (p : Packet) : Bool := p.haveFlag .callResponse

def isCallNotify (p : Packet) : Bool := p.haveFlag .callNotify

def setId (p : Packet) (id : BitVec 16) : Packet := { p with id := id }

end Flags

section Access

variable (host : Endian)

/-- `write(bytes, length)`: the packet and the number of bytes written. -/
def write (p : Packet) (bytes : List Byte) : Packet × ℕ :=
  if p.haveFlag .writeable then ({ p with data := p.data ++ bytes }, bytes.length) else (p, 0)

def writeInt {w : ℕ} (p : Packet) (value : BitVec w) : Packet :=
  (p.write (host.bytes (hton host value))).1

def writeString (p : Packet) (str : List Byte) : Packet × ℕ :=
  if p.haveFlag .writeable then
    if str.length = 0 then (p, 0)
    else
      let p := p.writeInt host (BitVec.ofNat 32 str.length)
      ({ p with data := p.data ++ str }, str.length)
  else (p, 0)

/-- `write(bytes)`, which writes the size of empty bytes too. -/
def writeBytes (p : Packet) (bytes : List Byte) : Packet × ℕ :=
  if p.haveFlag .writeable then
    let p := p.writeInt host (BitVec.ofNat 32 bytes.length)
    ({ p with data := p.data ++ bytes }, bytes.length)
  else (p, 0)

/-- `read(value, length)`: the packet and the bytes copied out, if any. -/
def read (p : Packet) (length : ℕ) : Packet × Option (List Byte) :=
  if p.haveFlag .readable = true ∧ length ≤ p.data.length - p.offset then
    ({ p with offset := p.offset + length }, some ((p.data.drop p.offset).take length))
  else (p, none)

/-- `operator>>` of an integer, which is zero where nothing could be read. -/
def readInt (w : ℕ) (p : Packet) : Packet × BitVec w :=
  match p.read (w / 8) with
  | (p, some bytes) => (p, ntoh host (host.ofBytes w bytes))
  | (p, none) => (p, ntoh host 0)

/-- `read(str)`: the packet and what is appended to the string. -/
def readString (p : Packet) : Packet × List Byte :=
  if p.haveFlag .readable then
    let (p, length) := p.readInt host 32
    if length = 0 then (p, [])
    else
      match p.read length.toNat with
      | (p, some bytes) => (p, bytes)
      | (p, none) => (p, [])
  else (p, [])

/-- `read(bytes)`: the packet and what is put in front of the bytes. -/
def readBytes (p : Packet) : Packet × List Byte := p.readString host

def remove (p : Packet) (length : ℕ) : Packet × ℕ :=
  let left := p.data.length - p.offset
  if left < length then ({ p with offset := p.offset + left }, left)
  else ({ p with offset := p.offset + length }, length)

end Access

section Lemmas

variable {p : Packet} {host : Endian}

theorem haveFlag_eq_getLsbD (type : PacketFlag) :
    p.haveFlag type = p.flag.getLsbD type.ctorIdx := by
  have hbit : type.bit = BitVec.twoPow 8 type.ctorIdx := by cases type <;> rfl
  have hpow : BitVec.twoPow 8 type.ctorIdx ≠ 0#8 := by cases type <;> decide
  rw [haveFlag, hbit, BitVec.and_twoPow]
  cases p.flag.getLsbD type.ctorIdx <;> simp [hpow]

/-- Setting a flag sets that one, clearing any flag clears the readable one. -/
theorem haveFlag_setFlag (flag : Bool) (type type' : PacketFlag) :
    (p.setFlag flag type).haveFlag type' =
      if flag then type == type' || p.haveFlag type'
      else type' != .readable && p.haveFlag type' := by
  simp only [haveFlag_eq_getLsbD, setFlag]
  cases flag with
  | true =>
    have hbit : type.bit.getLsbD type'.ctorIdx = (type == type') := by
      cases type <;> cases type' <;> rfl
    simp [hbit, Bool.or_comm]
  | false =>
    have hbit : (~~~PacketFlag.readable.bit).getLsbD type'.ctorIdx = (type' != .readable) := by
      cases type' <;> rfl
    simp only [Bool.false_eq_true, if_false, BitVec.getLsbD_and, hbit, Bool.and_comm]

@[simp] theorem haveFlag_write (bytes : List Byte) (type : PacketFlag) :
    (p.write bytes).1.haveFlag type = p.haveFlag type := by
  unfold write
  split <;> rfl

theorem write_of_writeable (h : p.haveFlag .writeable = true) (bytes : List Byte) :
    p.write bytes = ({ p with data := p.data ++ bytes }, bytes.length) := if_pos h

theorem writeInt_of_writeable {w : ℕ} (hw : w ∈ [8, 16, 32, 64])
    (h : p.haveFlag .writeable = true) (value : BitVec w) :
    p.writeInt host value = { p with data := p.data ++ bigEndian value.toNat (w / 8) } := by
  rw [writeInt, write_of_writeable h, bytes_hton hw]

def stringField (str : List Byte) : List Byte :=
  if str = [] then [] else bigEndian (str.length % 2 ^ 32) 4 ++ str

theorem writeString_of_writeable (h : p.haveFlag .writeable = true) (str : List Byte) :
    p.writeString host str = ({ p with data := p.data ++ stringField str }, str.length) := by
  by_cases hs : str = []
  · simp [writeString, h, hs, stringField]
  · have hlen : str.length ≠ 0 := fun h0 => hs (List.length_eq_zero_iff.mp h0)
    simp only [writeString, if_pos h, if_neg hlen, stringField, if_neg hs,
      writeInt_of_writeable (by decide : (32 : ℕ) ∈ [8, 16, 32, 64]) h, BitVec.toNat_ofNat,
      List.append_assoc]

theorem writeBytes_of_writeable (h : p.haveFlag .writeable = true) (bytes : List Byte) :
    p.writeBytes host bytes =
      ({ p with data := p.data ++ (bigEndian (bytes.length % 2 ^ 32) 4 ++ bytes) },
        bytes.length) := by
  simp only [writeBytes, if_pos h,
    writeInt_of_writeable (by decide : (32 : ℕ) ∈ [8, 16, 32, 64]) h, BitVec.toNat_ofNat,
    List.append_assoc]

end Lemmas

end Packet

end Plain.Net
