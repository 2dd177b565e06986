import Plain.Foundation.Bytes

/-! # Passwords

A password is encrypted into 32 characters: the length of a key, the key, the length of the
password, the password with the key added, and filling characters, some of them swapped.
The encryption decrypts its own result and starts over with another tick count when that
fails. It has no return of success, so `encrypt` never delivers a result.
-/

namespace Plain.Password

def maxPasswordLen : ℕ := 20

def resultLenStd : ℕ := 32

def minPKeyLen : ℕ := resultLenStd - maxPasswordLen - 2

def maxPKeyLen : ℕ := resultLenStd - 2

def minChar : ℤ := 0x20

def maxChar : ℤ := 0x7E

def charCount : ℕ := 95

/-- `PG_VALIDCHAR`: a letter, a digit or the underscore. -/
def validChar (c : ℤ) : Bool :=
  (0x61 ≤ c ∧ c ≤ 0x7A) ∨ (0x41 ≤ c ∧ c ≤ 0x5A) ∨ c = 0x5F ∨ (0x30 ≤ c ∧ c ≤ 0x39)

/-- `pg_char2int`, with `PG_PKEYMASK` and `PG_PKEYOFF`. -/
def pgChar2int (b : Byte) : ℕ :=
  let keyoff := 7 % 8
  let x : BitVec 32 := b.signExtend 32 ^^^ 151
  let y := (1 &&& x) <<< keyoff
  let x := x.sshiftRight (8 - keyoff)
  ((x ||| y) &&& 0x1f).toNat

/-- A character that stands for `i`, a valid one if there is any. The search begins at a
place that the tick count gives. -/
def int2char (i : ℕ) (tickcount : BitVec 64) : Byte :=
  let chars := (List.range charCount).map fun j =>
    BitVec.ofNat 8 ((tickcount.toNat % charCount + j) % charCount + 0x20)
  match chars.find? fun b => pgChar2int b = i && validChar b.toInt with
  | some b => b
  | none => (chars.find? fun b => pgChar2int b = i).getD 0xFF

def swap (n₁ n₂ : ℕ) (sz : List Byte) : List Byte :=
  (sz.set n₁ (sz.getD n₂ 0)).set n₂ (sz.getD n₁ 0)

def pgSwapchars (sz : List Byte) : List Byte :=
  let sz := swap 0 13 sz
  let sz := swap 31 25 sz
  let sz := swap 12 30 sz
  let sz := swap 7 19 sz
  let sz := swap 3 21 sz
  let sz := swap 9 20 sz
  swap 15 18 sz

def nextChar (c : ℤ) : ℤ := if c + 1 > maxChar then minChar else c + 1

/-- The loop of `pg_encrypt` that moves a character and its key on until both are valid.
It gives up in the round after as many as `left`. -/
def moveOn : ℕ → ℤ → ℤ → Bool × ℤ × ℤ
  | 0, c, cc => (false, nextChar c, nextChar cc)
  | left + 1, c, cc =>
      if !validChar (nextChar cc) || !validChar (nextChar c) then
        moveOn left (nextChar c) (nextChar cc)
      else (true, nextChar c, nextChar cc)

/-- Whether all characters were encrypted, the key as it was changed, and the characters
written. `i` is the place of the first character of the password. -/
def pgEncrypt (key : List Byte) (i : ℕ) : List Byte → Bool × List Byte × List Byte
  | [] => (true, key, [])
  | p :: password =>
      let cc := (key.getD (i % key.length) 0).toInt
      let c := ((p.toInt - minChar) + (cc - minChar)).tmod charCount + minChar
      if validChar c then
        let r := pgEncrypt key (i + 1) password
        (r.1, r.2.1, BitVec.ofInt 8 c :: r.2.2)
      else
        let m := moveOn 256 c cc
        let key := key.set (i % key.length) (BitVec.ofInt 8 m.2.2)
        if m.1 then
          let r := pgEncrypt key (i + 1) password
          (r.1, r.2.1, BitVec.ofInt 8 m.2.1 :: r.2.2)
        else (false, key, [])

def pgDecrypt (key encrypted : List Byte) : List Byte :=
  encrypted.mapIdx fun i c =>
    let cc := (key.getD (i % key.length) 0).toInt
    BitVec.ofInt 8 ((charCount + (c.toInt - minChar) - (cc - minChar)).tmod charCount + minChar)

inductive Decrypted where
  | rejected
  | overrun
  | password (bytes : List Byte)
  deriving DecidableEq, Repr

/-- The lengths in the characters may reach beyond the 33 bytes of the buffer. The source does
not test this: it reads what lies there. -/
def pgDecryptPassword (encrypted : List Byte) : Decrypted :=
  let encrypted := cString encrypted
  if encrypted.length ≠ resultLenStd then .rejected
  else
    let buffer := pgSwapchars encrypted ++ [0]
    let pkLength := pgChar2int (buffer.getD 0 0)
    if pkLength < minPKeyLen ∨ maxPKeyLen < pkLength then .rejected
    else
      let length := pgChar2int (buffer.getD (pkLength + 1) 0)
      if length > maxPasswordLen then .rejected
      else if pkLength + 2 + length > buffer.length then .overrun
      else .password (pgDecrypt ((buffer.drop 1).take pkLength)
        ((buffer.drop (pkLength + 2)).take length))

def primeNumberList : List (BitVec 32) := [
  1153, 1789, 2797, 3023, 3491, 3617, 4519, 4547,
  5261, 5939, 6449, 7307, 8053, 9221, 9719, 9851,
  313, 659, 1229, 1847, 2459, 3121, 3793, 4483,
  5179, 6121, 6833, 7333, 7829, 8353, 9323, 9829]

def randomChar (tickcount : BitVec 64) (i : ℕ) : Byte :=
  let random := tickcount.setWidth 32 + primeNumberList.getD i 0
  let c := random.toNat % charCount + 0x20
  if validChar c then BitVec.ofNat 8 c
  else if random.toNat % 2 = 1 then BitVec.ofNat 8 (0x61 + random.toNat % 26)
  else BitVec.ofNat 8 (0x41 + random.toNat % 26)

def sameIgnoringCase (a b : List Byte) : Bool :=
  let lower (c : Byte) : Byte := if 0x41 ≤ c ∧ c ≤ 0x5A then c + 0x20 else c
  a.map lower = b.map lower

def keyLength (length : ℕ) (tickcount : BitVec 64) : ℕ :=
  let keylength := resultLenStd - length - 2
  if keylength > minPKeyLen then
    (tickcount + 10237).toNat % (keylength - minPKeyLen) + minPKeyLen
  else keylength

/-- One pass over `result`, with whether the password was encrypted. The places an encryption
does not reach keep their characters. -/
def fillResult (result password : List Byte) (tickcount : BitVec 64) : Bool × List Byte :=
  let length := password.length
  let keylength := keyLength length tickcount
  let key := (List.range keylength).map (randomChar tickcount)
  let r := pgEncrypt key 0 password
  let rest := (result.drop (keylength + 2 + r.2.2.length)).take (length - r.2.2.length)
  let fill := (List.range' (keylength + 2 + length) (resultLenStd - 2 - keylength - length)).map
    (randomChar tickcount)
  (r.1, pgSwapchars (int2char keylength tickcount :: r.2.1 ++
    int2char length tickcount :: r.2.2 ++ rest ++ fill))

/-- The encrypted password is decrypted again, and compared without regard to case. Its
lengths fit into the buffer, so that this decryption does not overrun it. -/
def recheck (r : Bool × List Byte) (password : List Byte) : Bool :=
  match r.1, pgDecryptPassword r.2 with
  | true, .password bytes => sameIgnoringCase (cString bytes) password
  | _, _ => false

/-- The returned value and the 32 characters of the result. `left` is how far the level is
from its limit. -/
def pgEncryptPassword : ℕ → List Byte → List Byte → BitVec 64 → Bool × List Byte
  | 0, result, _, _ => (false, result)
  | left + 1, result, password, tickcount =>
      if password.length > maxPasswordLen then (false, result)
      else if password.any fun c => c.toInt < minChar || maxChar < c.toInt then (false, result)
      else
        let r := fillResult result password tickcount
        if !recheck r password then pgEncryptPassword left r.2 password (tickcount + 9929)
        else (false, r.2)

def maxLevel : ℕ := 32

/-- The returned value and `out`. The string is assigned the flag, not the characters. -/
def encrypt (input out : List Byte) : Bool × List Byte :=
  let temp := List.replicate resultLenStd 0
  if (pgEncryptPassword maxLevel temp (cString input) 1).1 then (true, [1]) else (false, out)

def decrypt (input out : List Byte) : Option (Bool × List Byte) :=
  match pgDecryptPassword input with
  | .rejected => some (false, out)
  | .overrun => none
  | .password bytes => some (true, cString bytes)

/-- Whatever the level at which it stops, the encryption returns false. -/
theorem pgEncryptPassword_fst (left : ℕ) (result password : List Byte)
    (tickcount : BitVec 64) :
    (pgEncryptPassword left result password tickcount).1 = false := by
  induction left generalizing result tickcount with
  | zero => rfl
  | succ left ih =>
    unfold pgEncryptPassword
    dsimp only
    -- the refusals and the last return all give false; only a retry goes on
    split_ifs
    · rfl
    · rfl
    · exact ih _ _
    · rfl

/-- No password is encrypted, let alone decrypted again. -/
theorem encrypt_roundTrip_iff (password out result : List Byte) :
    ((encrypt password out).1 = true ∧
        decrypt (encrypt password out).2 result = some (true, password)) ↔ False := by
  have h : encrypt password out = (false, out) := by
    unfold encrypt
    dsimp only
    rw [pgEncryptPassword_fst, if_neg Bool.false_ne_true]
  rw [h]
  simp

/-- The two characters `ab` are encrypted into characters that decrypt to them, but `encrypt`
reports a failure and delivers nothing. -/
theorem encrypt_discards_result :
    encrypt [0x61, 0x62] [] = (false, []) ∧ decrypt [] [] = some (false, []) ∧
      pgDecryptPassword (pgEncryptPassword maxLevel (List.replicate resultLenStd 0)
        [0x61, 0x62] 1).2 = .password [0x61, 0x62] := by
  decide +kernel

end Plain.Password
