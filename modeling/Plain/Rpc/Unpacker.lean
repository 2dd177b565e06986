import Plain.Basic.Error
import Plain.Foundation.Bytes

/-! # The cursor of the RPC decoder

An `Unpacker` moves through the bytes between `data_` and `data_end_`. Its reads
are total: past the end they yield zero and leave an error behind.
-/

namespace Plain.Rpc

/-- The type tags of the wire format, numbered from zero in this order. -/
inductive Tag where
  | null | int8 | uint8 | int16 | uint16 | int32 | uint32 | int64 | uint64
  | float32 | float64 | trueBool | falseBool | bin8 | bin16 | bin32
  | ext8 | ext16 | ext32 | str8 | str16 | str32 | array16 | array32 | map16 | map32
  deriving DecidableEq, Repr

def Tag.toByte (t : Tag) : Byte := BitVec.ofNat 8 t.ctorIdx

def Tag.max : Byte := 26

theorem Tag.toNat_toByte (t : Tag) : t.toByte.toNat = t.ctorIdx := by cases t <;> rfl

/-- A decoder: the bytes from `data_` to `data_end_`, how far `data_` has run past
`data_end_`, and `error_`. -/
structure Unpacker where
  rest : List Byte
  overrun : ℕ
  error : ErrorCode
  deriving DecidableEq, Repr

namespace Unpacker

def of (bytes : List Byte) : Unpacker := ⟨bytes, 0, .none⟩

def data (u : Unpacker) : Byte × Unpacker :=
  match u.rest with
  | b :: _ => (b, u)
  | [] => (0, { u with error := .outOfRange })

def increment (u : Unpacker) (bytes : ℕ) : Unpacker :=
  if u.overrun = 0 ∧ bytes ≤ u.rest.length then { u with rest := u.rest.drop bytes }
  else { u with error := .outOfRange }

/-- The unchecked `data_++`. -/
def advance (u : Unpacker) : Unpacker :=
  match u.rest with
  | _ :: bs => { u with rest := bs }
  | [] => { u with overrun := u.overrun + 1 }

/-- `data()` followed by `increment()`. -/
def next (u : Unpacker) : Byte × Unpacker := (u.data.1, u.data.2.increment 1)

/-- The loop `value += data() << 8 * (i - 1); increment();` for `i` down to one. -/
def accumulate {w : ℕ} : ℕ → BitVec w → Unpacker → BitVec w × Unpacker
  | 0, value, u => (value, u)
  | i + 1, value, u =>
      accumulate i (value + u.next.1.setWidth w <<< (8 * i)) u.next.2

/-- The loop `bits |= data() << 8 * (i - 1); increment();` for `i` down to one. -/
def collect {w : ℕ} : ℕ → BitVec w → Unpacker → BitVec w × Unpacker
  | 0, bits, u => (bits, u)
  | i + 1, bits, u =>
      collect i (bits ||| u.next.1.setWidth w <<< (8 * i)) u.next.2

variable {b : Byte} {bs rest : List Byte} {o w : ℕ} {e : ErrorCode} {u : Unpacker}

@[simp] theorem data_cons : data ⟨b :: bs, o, e⟩ = (b, ⟨b :: bs, o, e⟩) := rfl

@[simp] theorem data_nil : data ⟨[], o, e⟩ = (0, ⟨[], o, .outOfRange⟩) := rfl

@[simp] theorem increment_cons : increment ⟨b :: bs, 0, e⟩ 1 = ⟨bs, 0, e⟩ := by simp [increment]

@[simp] theorem next_cons : next ⟨b :: bs, 0, e⟩ = (b, ⟨bs, 0, e⟩) := by simp [next]

theorem increment_append : increment ⟨bs ++ rest, 0, e⟩ bs.length = ⟨rest, 0, e⟩ := by
  simp [increment]

theorem setWidth_shiftLeft_byte (w n k : ℕ) :
    (BitVec.ofNat 8 (n >>> (8 * k))).setWidth w <<< (8 * k) =
      BitVec.ofNat w (n / 256 ^ k % 256 * 256 ^ k) := by
  apply BitVec.eq_of_toNat_eq
  rw [BitVec.toNat_shiftLeft, BitVec.toNat_setWidth, toNat_leading, BitVec.toNat_ofNat,
    Nat.shiftLeft_eq, Nat.pow_mul, Nat.mod_mul_mod]

theorem accumulate_bigEndian (n k : ℕ) (value : BitVec w) :
    accumulate k value ⟨bigEndian n k ++ rest, 0, e⟩ =
      (value + BitVec.ofNat w (n % 256 ^ k), ⟨rest, 0, e⟩) := by
  induction k generalizing value with
  | zero => simp [accumulate, Nat.mod_one]
  | succ k ih =>
    rw [bigEndian_succ, List.cons_append, accumulate, next_cons, ih, setWidth_shiftLeft_byte,
      BitVec.add_assoc, ← BitVec.ofNat_add, mod_succ_bytes, Nat.add_comm (n % 256 ^ k)]

theorem collect_bigEndian (n k : ℕ) (bits : BitVec w) :
    collect k bits ⟨bigEndian n k ++ rest, 0, e⟩ =
      (bits ||| BitVec.ofNat w (n % 256 ^ k), ⟨rest, 0, e⟩) := by
  induction k generalizing bits with
  | zero => simp [collect, Nat.mod_one]
  | succ k ih =>
    have hlt : n % 256 ^ k < 2 ^ (8 * k) := by
      rw [Nat.pow_mul]
      exact Nat.mod_lt _ (Nat.pow_pos (by omega))
    have hor : n % 256 ^ (k + 1) = n / 256 ^ k % 256 * 256 ^ k ||| n % 256 ^ k := by
      rw [mod_succ_bytes, Nat.add_comm, Nat.mul_comm, show 256 ^ k = 2 ^ (8 * k) by
        rw [Nat.pow_mul]]
      exact Nat.two_pow_add_eq_or_of_lt (by simpa [Nat.pow_mul] using hlt) _
    rw [bigEndian_succ, List.cons_append, collect, next_cons, ih, setWidth_shiftLeft_byte,
      BitVec.or_assoc, ← BitVec.ofNat_or, hor]

end Unpacker

end Plain.Rpc
