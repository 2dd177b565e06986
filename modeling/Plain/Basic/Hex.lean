import Mathlib.Algebra.Group.Nat.Defs
import Mathlib.Logic.Function.Basic
import Plain.Foundation.Bytes

/-! # Bytes as hexadecimal text

A byte is written as two characters and read back from two. The memory that a pointer
leads to is a function of the offset, and the counters are unsigned numbers of 32 bits. The
lower half of a byte is never written: the upper half is masked out for both characters,
and neither zero nor what is above fifteen has a digit.
-/

namespace Plain

def asciiTable : List Byte :=
  [0x30, 0x31, 0x32, 0x33, 0x34, 0x35, 0x36, 0x37, 0x38, 0x39, 0x41, 0x42, 0x43, 0x44, 0x45, 0x46]

def questionMark : Byte := 0x3f

/-- A character is signed. -/
def valueToascii (value : Byte) : Byte :=
  if 0 < value.toInt ∧ value.toNat < asciiTable.length then
    asciiTable.getD value.toNat questionMark
  else questionMark

def asciiTovalue (char : Byte) : Byte :=
  match char.toNat with
  | 0x30 => 0
  | 0x31 => 1
  | 0x32 => 2
  | 0x33 => 3
  | 0x34 => 4
  | 0x35 => 5
  | 0x36 => 6
  | 0x37 => 7
  | 0x38 => 8
  | 0x39 => 9
  | 0x41 => 10
  | 0x42 => 11
  | 0x43 => 12
  | 0x44 => 13
  | 0x45 => 14
  | 0x46 => 15
  | _ => questionMark

def upperAscii (byte : Byte) : Byte := valueToascii ((byte &&& 0xf0) >>> 4)

def lowerAscii (byte : Byte) : Byte := valueToascii (byte &&& 0xf0)

def binaryTostringLoop (input : ℕ → Byte) : ℕ → ℕ → ℕ → (ℕ → Byte) → ℕ → Byte
  | 0, _, _, out => out
  | rounds + 1, i, outIndex, out =>
      let out := Function.update out outIndex (upperAscii (input i))
      let outIndex := (outIndex + 1) % 2 ^ 32
      let out := Function.update out outIndex (lowerAscii (input i))
      binaryTostringLoop input rounds (i + 1) ((outIndex + 1) % 2 ^ 32) out

def binaryTostring (input : ℕ → Byte) (inLength : ℕ) (out : ℕ → Byte) : Bool × (ℕ → Byte) :=
  if inLength = 0 then (false, out) else (true, binaryTostringLoop input inLength 0 0 out)

/-- A round goes on by three characters: two that it has read and one of the loop itself. So it
stays below two to the 32, and the rounds are fewer than the characters. -/
def stringTobinaryLoop (input : ℕ → Byte) (inLength outLimit : ℕ) :
    ℕ → ℕ → ℕ → (ℕ → Byte) → ℕ × (ℕ → Byte)
  | 0, _, outIndex, out => (outIndex, out)
  | rounds + 1, i, outIndex, out =>
      if ¬ i < inLength then (outIndex, out)
      else if input i = 0 ∨ input (i + 1) = 0 then (outIndex, out)
      else
        let byte := asciiTovalue (input i) <<< 4 + asciiTovalue (input (i + 1))
        let out := Function.update out outIndex byte
        let outIndex := outIndex + 1
        if outLimit < outIndex then (outIndex, out)
        else stringTobinaryLoop input inLength outLimit rounds (i + 3) outIndex out

def stringTobinary (input : ℕ → Byte) (inLength : ℕ) (out : ℕ → Byte) (outLimit outLength : ℕ) :
    Bool × ℕ × (ℕ → Byte) :=
  if inLength = 0 then (false, outLength, out)
  else (true, stringTobinaryLoop input inLength outLimit inLength 0 0 out)

section Characters

theorem lowerAscii_eq (byte : Byte) : lowerAscii byte = questionMark := by
  revert byte
  decide

theorem upperAscii_ne_zero (byte : Byte) : upperAscii byte ≠ 0 := by
  revert byte
  decide

/-- A byte is not what its two characters are read as. -/
theorem read_upperAscii_ne (byte : Byte) :
    asciiTovalue (upperAscii byte) <<< 4 + asciiTovalue questionMark ≠ byte := by
  revert byte
  decide

end Characters

section Loops

variable {input out : ℕ → Byte} {rounds i outIndex j : ℕ}

/-- At an odd position nothing but a question mark is ever written, also after an overflow. -/
theorem binaryTostringLoop_odd (heven : outIndex % 2 = 0) (hj : j % 2 = 1)
    (hout : out j = questionMark) :
    binaryTostringLoop input rounds i outIndex out j = questionMark := by
  induction rounds generalizing i outIndex out with
  | zero => exact hout
  | succ rounds ih =>
    refine ih (by omega) ?_
    rw [Function.update_apply, Function.update_apply, if_neg (by omega : j ≠ outIndex),
      lowerAscii_eq, hout, ite_self]

theorem binaryTostringLoop_of_lt (hj : j < outIndex) (hfit : outIndex + 2 * rounds < 2 ^ 32) :
    binaryTostringLoop input rounds i outIndex out j = out j := by
  induction rounds generalizing i outIndex out with
  | zero => rfl
  | succ rounds ih =>
    rw [binaryTostringLoop, ih (by omega) (by omega), Function.update_of_ne (by omega),
      Function.update_of_ne hj.ne]

theorem stringTobinaryLoop_of_lt {inLength outLimit : ℕ} (hj : j < outIndex) :
    (stringTobinaryLoop input inLength outLimit rounds i outIndex out).2 j = out j := by
  induction rounds generalizing i outIndex out with
  | zero => rfl
  | succ rounds ih =>
    rw [stringTobinaryLoop]
    split
    · rfl
    split
    · rfl
    have hne : j ≠ outIndex := hj.ne
    dsimp only
    split
    · exact Function.update_of_ne hne _ _
    · rw [ih (Nat.lt_succ_of_lt hj), Function.update_of_ne hne]

theorem stringTobinaryLoop_written {inLength outLimit : ℕ} (hi : i < inLength)
    (hfirst : input i ≠ 0) (hsecond : input (i + 1) ≠ 0) :
    (stringTobinaryLoop input inLength outLimit (rounds + 1) i outIndex out).2 outIndex =
      asciiTovalue (input i) <<< 4 + asciiTovalue (input (i + 1)) := by
  rw [stringTobinaryLoop, if_neg (not_not_intro hi),
    if_neg fun h => h.elim hfirst hsecond]
  dsimp only
  split
  · exact Function.update_self _ _ _
  · rw [stringTobinaryLoop_of_lt (Nat.lt_succ_self _), Function.update_self]

end Loops

variable {input : ℕ → Byte} {n : ℕ}

/-- The text of one byte or more has a character that is no digit. If its length can be given to
the function that reads it, the first byte is read as another one. -/
theorem hex_text_fails (hn : 0 < n) (out : ℕ → Byte) :
    (∃ j < 2 * n, (binaryTostring input n out).2 j ∉ asciiTable) ∧
      (2 * n < 2 ^ 32 → ∀ (bytes : ℕ → Byte) (outLimit outLength : ℕ),
        ∃ j < n, (stringTobinary (binaryTostring input n out).2 (2 * n) bytes
          outLimit outLength).2.2 j ≠ input j) := by
  obtain ⟨m, rfl⟩ := Nat.exists_eq_succ_of_ne_zero hn.ne'
  let first := Function.update (Function.update out 0 (upperAscii (input 0))) 1
    (lowerAscii (input 0))
  have htext : (binaryTostring input (m + 1) out).2 = binaryTostringLoop input m 1 2 first := rfl
  have hsecond : first 1 = questionMark := by
    rw [← lowerAscii_eq (input 0)]
    exact Function.update_self 1 _ _
  rw [htext]
  constructor
  · refine ⟨1, by omega, ?_⟩
    rw [binaryTostringLoop_odd rfl rfl hsecond]
    decide
  · intro hfit bytes outLimit outLength
    have hupper : binaryTostringLoop input m 1 2 first 0 = upperAscii (input 0) := by
      rw [binaryTostringLoop_of_lt (by omega) (by omega)]
      exact (Function.update_of_ne Nat.zero_ne_one _ _).trans (Function.update_self 0 _ _)
    have hlower : binaryTostringLoop input m 1 2 first (0 + 1) = questionMark :=
      binaryTostringLoop_odd rfl rfl hsecond
    refine ⟨0, by omega, ?_⟩
    rw [stringTobinary, if_neg (by omega)]
    dsimp only
    rw [Nat.mul_succ, stringTobinaryLoop_written (by omega)
      (by rw [hupper]; exact upperAscii_ne_zero _) (by rw [hlower]; decide), hupper, hlower]
    exact read_upperAscii_ne (input 0)

theorem hex_text_fails_letter :
    (∃ j < 2 * 1, (binaryTostring (fun _ => 0x41) 1 fun _ => 0).2 j ∉ asciiTable) ∧
      ∃ j < 1, (stringTobinary (binaryTostring (fun _ => 0x41) 1 fun _ => 0).2 (2 * 1)
        (fun _ => 0) 1 0).2.2 j ≠ 0x41 :=
  have h := @hex_text_fails (fun _ => 0x41) 1 Nat.one_pos fun _ => 0
  ⟨h.1, h.2 (by decide) (fun _ => 0) 1 0⟩

/-- The letter A has the text of a four and a question mark, and is read as another character. -/
theorem hex_text_of_letter :
    (binaryTostring (fun _ => 0x41) 1 fun _ => 0).2 0 = 0x34 ∧
      (binaryTostring (fun _ => 0x41) 1 fun _ => 0).2 1 = questionMark ∧
      (stringTobinary (binaryTostring (fun _ => 0x41) 1 fun _ => 0).2 2
        (fun _ => 0) 1 0).2.2 0 = 0x7f := by
  decide

end Plain
