import Plain.Foundation.Bytes
import Plain.Foundation.Decimal
import Plain.Foundation.Int32

/-! # A number inside of a text

The digits of a number are put into a text at some position. In front stand the first
character, from which the characters of all digits are counted, the number of digits, and the
position with its own number of digits. Both directions take parts of a text by their
address alone, and such a part goes on to the end of the whole text.
-/

namespace Plain.NumberCrypt

def chars : List Byte :=
  [0x61, 0x62, 0x63, 0x64, 0x65, 0x66, 0x67, 0x68, 0x69, 0x6a, 0x6b, 0x6c, 0x6d,
    0x41, 0x42, 0x43, 0x44, 0x45, 0x46, 0x47, 0x48, 0x49, 0x4a, 0x4b, 0x4c, 0x4d]

def toText (number : ℤ) : List Byte :=
  if number < 0 then 0x2d :: decimal number.natAbs else decimal number.natAbs

/-- The last `k` characters of a number. A power of ten that is no `int32_t` has no value. -/
def encryptDigits (number : ℤ) (char : Byte) : ℕ → Option (List Byte)
  | 0 => some []
  | k + 1 => do
      let power ← int32 (10 ^ k)
      let n := (number.tdiv power).tmod 10
      let rest ← encryptDigits number char k
      return BitVec.ofInt 8 (n + char.toInt) :: rest

def encryptNumber (number : ℤ) (char : Byte) : Option (List Byte) :=
  encryptDigits number char (toText number).length

def decryptDigits (char : Byte) : List Byte → ℤ → Option ℤ
  | [], number => some number
  | c :: rest, number => do
      let power ← int32 (10 ^ rest.length)
      let summand ← int32 ((c.toInt - char.toInt) * power)
      let number ← int32 (number + summand)
      decryptDigits char rest number

def decryptNumber (input : List Byte) (char : Byte) : Option ℤ := decryptDigits char input 0

def sizeT (n : ℤ) : ℕ := (n % 2 ^ 64).toNat

/-- The address of a part of a text, as a text of its own. -/
def substrData (input : List Byte) (begin : ℤ) : Option (List Byte) :=
  if sizeT begin ≤ input.length then some (cString (input.drop (sizeT begin))) else none

/-- The text for one choice of the first character and of the position. -/
def encrypt (input : List Byte) (number : ℤ) (firstChar : Byte) (pos : ℕ) :
    Option (List Byte) := do
  let numberStr ← encryptNumber number firstChar
  let posStr ← encryptNumber (BitVec.ofNat 32 pos).toInt firstChar
  let lenChar := firstChar + BitVec.ofNat 8 numberStr.length
  let posLenChar := firstChar + BitVec.ofNat 8 posStr.length
  let out := [firstChar, lenChar, posLenChar] ++ posStr
  if pos = 0 then return out ++ numberStr ++ cString input
  else if pos = input.length then return out ++ cString input ++ numberStr
  else return out ++ cString input ++ numberStr ++ cString (input.drop pos)

/-- What is returned, and the number and the text that the caller has afterwards. -/
def decrypt (input : List Byte) (number : ℤ) (out : List Byte) :
    Option (Bool × ℤ × List Byte) :=
  if input.length ≤ 4 then some (false, number, out)
  else
    let firstChar := input.getD 0 0
    let length := (input.getD 1 0).toInt - firstChar.toInt
    let posLen := (input.getD 2 0).toInt - firstChar.toInt
    let headerSize := 3 + posLen
    if input.length < sizeT headerSize then some (false, number, out)
    else do
      let pos ← decryptNumber ((input.drop 3).take (sizeT posLen)) firstChar
      let size ← int32 (pos + length)
      if (input.length - headerSize).toNat < sizeT size then some (false, number, out)
      else do
        let begin ← int32 (headerSize + pos)
        let numberStr ← substrData input begin
        let number ← decryptNumber numberStr firstChar
        let behind ← int32 (begin + length)
        let front ← substrData input headerSize
        let back ← substrData input behind
        return (true, number, front ++ back)

section Encrypt

variable {number : ℤ} {char : Byte} {k : ℕ} {digits : List Byte}

theorem toInt_of_mem_chars : ∀ char ∈ chars, 65 ≤ char.toInt ∧ char.toInt ≤ 109 := by
  decide +kernel

theorem encryptDigits_length (h : encryptDigits number char k = some digits) :
    digits.length = k ∧ k ≤ 10 := by
  induction k generalizing digits with
  | zero =>
    obtain rfl := Option.some.inj h
    exact ⟨rfl, Nat.zero_le _⟩
  | succ k ih =>
    simp only [encryptDigits, Option.bind_eq_bind, Option.bind_eq_some_iff] at h
    obtain ⟨power, hpower, rest, hrest, hdigits⟩ := h
    obtain rfl := Option.some.inj hdigits
    refine ⟨congrArg Nat.succ (ih hrest).1, ?_⟩
    by_contra hk
    have hlt := (int32_eq_some_iff.mp hpower).2.2
    have hle : (10 : ℤ) ^ 10 ≤ 10 ^ k := pow_le_pow_right₀ (by decide) (by omega)
    omega

theorem ne_zero_of_mem_encryptDigits (hchar : char ∈ chars)
    (h : encryptDigits number char k = some digits) : ∀ c ∈ digits, c ≠ 0 := by
  induction k generalizing digits with
  | zero =>
    obtain rfl := Option.some.inj h
    exact fun c hc => absurd hc List.not_mem_nil
  | succ k ih =>
    simp only [encryptDigits, Option.bind_eq_bind, Option.bind_eq_some_iff] at h
    obtain ⟨power, hpower, rest, hrest, hdigits⟩ := h
    obtain rfl := Option.some.inj hdigits
    refine List.forall_mem_cons.mpr ⟨?_, ih hrest⟩
    have hbounds := toInt_of_mem_chars char hchar
    have hlt : (((number.tdiv power).tmod 10).natAbs : ℤ) < 10 := by
      rw [Int.natAbs_tmod]
      exact Int.ofNat_lt.mpr (Nat.mod_lt _ (by decide))
    intro hzero
    have hnat : ((number.tdiv power).tmod 10 + char.toInt) % 256 = 0 := by
      have h := congrArg BitVec.toNat hzero
      rw [BitVec.toNat_ofInt] at h
      change Int.toNat (_ % 256) = 0 at h
      omega
    omega

theorem toText_length_pos (number : ℤ) : 0 < (toText number).length := by
  unfold toText
  split
  · exact Nat.succ_pos _
  · exact List.length_pos_iff.mpr (decimal_ne_nil _)

/-- The form of a text that a number was put into: the header, and behind it more than the text. -/
theorem encrypt_eq {input e : List Byte} {firstChar : Byte} {pos : ℕ}
    (hinput : ∀ c ∈ input, c ≠ 0) (hchar : firstChar ∈ chars)
    (h : encrypt input number firstChar pos = some e) :
    ∃ lenChar posStr body, posStr.length ≤ 10 ∧ (∀ c ∈ body, c ≠ 0) ∧
      input.length < body.length ∧
      e = firstChar :: lenChar :: (firstChar + BitVec.ofNat 8 posStr.length) :: posStr ++ body := by
  simp only [encrypt, Option.bind_eq_bind, Option.bind_eq_some_iff] at h
  obtain ⟨numberStr, hnumber, posStr, hpos, h⟩ := h
  obtain ⟨hlen, -⟩ := encryptDigits_length hnumber
  have hnumberPos := toText_length_pos number
  have hposLen := encryptDigits_length hpos
  have hzero := ne_zero_of_mem_encryptDigits hchar hnumber
  rw [cString_eq hinput] at h
  have hdrop : ∀ c ∈ input.drop pos, c ≠ 0 := fun c hc => hinput c (List.mem_of_mem_drop hc)
  have hbody : ∃ body, (∀ c ∈ body, c ≠ 0) ∧ input.length < body.length ∧
      e = [firstChar, firstChar + BitVec.ofNat 8 numberStr.length,
        firstChar + BitVec.ofNat 8 posStr.length] ++ posStr ++ body := by
    split at h
    · refine ⟨numberStr ++ input, ?_, ?_, ?_⟩
      · exact List.forall_mem_append.mpr ⟨hzero, hinput⟩
      · rw [List.length_append]
        omega
      · rw [← Option.some.inj h, List.append_assoc]
    split at h
    · refine ⟨input ++ numberStr, ?_, ?_, ?_⟩
      · exact List.forall_mem_append.mpr ⟨hinput, hzero⟩
      · rw [List.length_append]
        omega
      · rw [← Option.some.inj h, List.append_assoc]
    · refine ⟨input ++ numberStr ++ input.drop pos, ?_, ?_, ?_⟩
      · exact List.forall_mem_append.mpr ⟨List.forall_mem_append.mpr ⟨hinput, hzero⟩, hdrop⟩
      · rw [List.length_append, List.length_append]
        omega
      · rw [← Option.some.inj h, cString_eq hdrop]
        simp only [List.append_assoc]
  obtain ⟨body, hbodyZero, hbodyLen, rfl⟩ := hbody
  exact ⟨_, posStr, body, by omega, hbodyZero, hbodyLen, rfl⟩

end Encrypt

theorem decrypt_front {input out t : List Byte} {number m : ℤ}
    (h : decrypt input number out = some (true, m, t)) :
    ∃ front, substrData input (3 + ((input.getD 2 0).toInt - (input.getD 0 0).toInt)) =
      some front ∧ front <+: t := by
  rw [decrypt] at h
  split at h
  · cases h
  dsimp only at h
  split at h
  · cases h
  simp only [Option.bind_eq_bind, Option.bind_eq_some_iff] at h
  obtain ⟨pos, -, size, -, h⟩ := h
  split at h
  · cases h
  simp only [Option.bind_eq_some_iff] at h
  obtain ⟨begin, -, numberStr, -, n, -, behind, -, front, hfront, back, -, h⟩ := h
  cases h
  exact ⟨front, hfront, List.prefix_append front back⟩

theorem substrData_append {header body : List Byte} {begin : ℤ} (hbegin : begin = header.length)
    (hfit : header.length < 2 ^ 64) (hbody : ∀ c ∈ body, c ≠ 0) :
    substrData (header ++ body) begin = some body := by
  have hsize : sizeT begin = header.length := by
    rw [sizeT, hbegin]
    omega
  rw [substrData, hsize, if_pos (by simp), List.drop_left, cString_eq hbody]

theorem toInt_add_sub {firstChar : Byte} (hchar : firstChar ∈ chars) {n : ℕ} (hn : n ≤ 10) :
    (firstChar + BitVec.ofNat 8 n).toInt - firstChar.toInt = n := by
  have h : ∀ c ∈ chars, ∀ n < 11, (c + BitVec.ofNat 8 n).toInt - c.toInt = n := by decide +kernel
  exact h firstChar hchar n (Nat.lt_succ_of_le hn)

/-- A text that a number was put into never comes back: what is taken out is longer, for every
number, first character and position. -/
theorem decrypt_encrypt_longer {input : List Byte} {firstChar : Byte} {pos : ℕ}
    (hinput : ∀ c ∈ input, c ≠ 0) (hchar : firstChar ∈ chars) (number : ℤ) :
    ∀ (anyNumber : ℤ) (anyOut : List Byte) (m : ℤ) (t : List Byte),
      ((encrypt input number firstChar pos).bind fun e => decrypt e anyNumber anyOut) =
        some (true, m, t) → input.length < t.length := by
  intro anyNumber anyOut m t h
  obtain ⟨e, he, h⟩ := Option.bind_eq_some_iff.mp h
  obtain ⟨lenChar, posStr, body, hposLen, hbody, hlen, rfl⟩ := encrypt_eq hinput hchar he
  obtain ⟨front, hfront, hle⟩ := decrypt_front h
  have hheader : 3 + ((firstChar + BitVec.ofNat 8 posStr.length).toInt - firstChar.toInt) =
      (firstChar :: lenChar :: (firstChar + BitVec.ofNat 8 posStr.length) :: posStr).length := by
    rw [toInt_add_sub hchar hposLen]
    simp only [List.length_cons]
    omega
  have hfrontEq : front = body :=
    Option.some.inj (hfront.symm.trans (substrData_append hheader (by simp; omega) hbody))
  rw [hfrontEq] at hle
  exact hlen.trans_le hle.length_le

theorem decrypt_encrypt_longer_ab :
    ((encrypt [0x61, 0x62] 5 0x61 2).bind fun e => decrypt e 0 []) =
        some (true, 5, [0x61, 0x62, 0x66]) ∧
      [(0x61 : Byte), 0x62].length < [(0x61 : Byte), 0x62, 0x66].length :=
  have h : ((encrypt [0x61, 0x62] 5 0x61 2).bind fun e => decrypt e 0 []) =
      some (true, 5, [0x61, 0x62, 0x66]) := by decide +kernel
  ⟨h, decrypt_encrypt_longer (by decide) (by decide) 5 0 [] 5 _ h⟩

/-- The digit of the number stays behind the text. In the middle of a text, the number is wrong
as well. -/
theorem decrypt_encrypt_keeps_digits :
    ((encrypt [0x61, 0x62] 5 0x61 2).bind fun e => decrypt e 0 []) =
        some (true, 5, [0x61, 0x62, 0x66]) ∧
      ((encrypt [0x61, 0x62] 5 0x61 1).bind fun e => decrypt e 0 []) =
        some (true, 151, [0x61, 0x62, 0x66, 0x62, 0x66, 0x62]) := by
  decide +kernel

end Plain.NumberCrypt
