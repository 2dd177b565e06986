import Mathlib.Data.List.Basic
import Mathlib.Data.List.TakeWhile
import Mathlib.Data.Nat.Notation
import Mathlib.Tactic.Ring

/-! # Bytes

The bytes of a number with the most significant one first, as machine words are sent over
a network, and the number such bytes stand for; and texts that end with a zero byte.
-/

namespace Plain

abbrev Byte := BitVec 8

/-- The `k` low bytes of `n`, most significant first. -/
def bigEndian (n : ℕ) : ℕ → List Byte
  | 0 => []
  | i + 1 => BitVec.ofNat 8 (n >>> (8 * i)) :: bigEndian n i

/-- The number whose bytes are given, most significant first. -/
def ofBigEndian (bs : List Byte) : ℕ := bs.foldl (fun n b => 256 * n + b.toNat) 0

@[simp] theorem bigEndian_zero (n : ℕ) : bigEndian n 0 = [] := rfl

theorem bigEndian_succ (n i : ℕ) :
    bigEndian n (i + 1) = BitVec.ofNat 8 (n >>> (8 * i)) :: bigEndian n i := rfl

@[simp] theorem length_bigEndian (n k : ℕ) : (bigEndian n k).length = k := by
  induction k with
  | zero => rfl
  | succ k ih => simp [bigEndian_succ, ih]

theorem toNat_leading (n k : ℕ) :
    (BitVec.ofNat 8 (n >>> (8 * k))).toNat = n / 256 ^ k % 256 := by
  rw [BitVec.toNat_ofNat, Nat.shiftRight_eq_div_pow, Nat.pow_mul]

theorem mod_succ_bytes (n k : ℕ) :
    n % 256 ^ (k + 1) = n % 256 ^ k + n / 256 ^ k % 256 * 256 ^ k := by
  rw [Nat.mod_pow_succ, Nat.mul_comm (256 ^ k)]

theorem bigEndian_mod (n j : ℕ) {i : ℕ} (h : i ≤ j) :
    bigEndian (n % 256 ^ j) i = bigEndian n i := by
  induction i with
  | zero => rfl
  | succ i ih =>
    rw [bigEndian_succ, bigEndian_succ, ih (by omega)]
    congr 1
    apply BitVec.eq_of_toNat_eq
    obtain ⟨k, rfl⟩ := Nat.exists_eq_add_of_lt (show i < j by omega)
    rw [toNat_leading, toNat_leading, Nat.add_assoc, Nat.pow_add, Nat.mod_mul_right_div_self,
      Nat.pow_succ, Nat.mul_comm, Nat.mod_mul_right_mod]

theorem bigEndian_append (a i : ℕ) {b j : ℕ} (hb : b < 256 ^ j) :
    bigEndian (a * 256 ^ j + b) (i + j) = bigEndian a i ++ bigEndian b j := by
  induction i with
  | zero =>
    rw [Nat.zero_add, ← bigEndian_mod _ j le_rfl, Nat.mul_add_mod_self_right, Nat.mod_eq_of_lt hb]
    rfl
  | succ i ih =>
    rw [Nat.succ_add, bigEndian_succ, bigEndian_succ, ih, List.cons_append]
    congr 1
    apply BitVec.eq_of_toNat_eq
    rw [toNat_leading, toNat_leading, Nat.pow_add, Nat.mul_comm (256 ^ i), ← Nat.div_div_eq_div_mul,
      Nat.add_comm, Nat.add_mul_div_right _ _ (Nat.pow_pos (by omega)), Nat.div_eq_of_lt hb,
      Nat.zero_add]

theorem foldl_bigEndian (n k a : ℕ) :
    (bigEndian n k).foldl (fun n b => 256 * n + b.toNat) a = a * 256 ^ k + n % 256 ^ k := by
  induction k generalizing a with
  | zero => simp [Nat.mod_one]
  | succ k ih =>
    rw [bigEndian_succ, List.foldl_cons, ih, toNat_leading, mod_succ_bytes, Nat.pow_succ]
    ring

theorem ofBigEndian_bigEndian (n k : ℕ) : ofBigEndian (bigEndian n k) = n % 256 ^ k := by
  simp [ofBigEndian, foldl_bigEndian]

theorem ofBigEndian_cons (b : Byte) (bs : List Byte) :
    ofBigEndian (b :: bs) = b.toNat * 256 ^ bs.length + ofBigEndian bs := by
  have key (bs : List Byte) (a : ℕ) : bs.foldl (fun n b => 256 * n + b.toNat) a =
      a * 256 ^ bs.length + ofBigEndian bs := by
    induction bs generalizing a with
    | nil => simp [ofBigEndian]
    | cons c bs ih =>
      rw [ofBigEndian, List.foldl_cons, List.foldl_cons, ih, ih (256 * 0 + c.toNat),
        List.length_cons, Nat.pow_succ]
      ring
  rw [ofBigEndian, List.foldl_cons, key]
  simp

theorem ofBigEndian_lt (bs : List Byte) : ofBigEndian bs < 256 ^ bs.length := by
  induction bs with
  | nil => simp [ofBigEndian]
  | cons b bs ih =>
    have hb := b.isLt
    rw [ofBigEndian_cons, List.length_cons, Nat.pow_succ]
    have hmul := Nat.mul_le_mul_right (256 ^ bs.length) (show b.toNat + 1 ≤ 256 by omega)
    rw [Nat.add_mul, Nat.mul_comm 256] at hmul
    omega

theorem bigEndian_ofBigEndian (bs : List Byte) : bigEndian (ofBigEndian bs) bs.length = bs := by
  induction bs with
  | nil => rfl
  | cons b bs ih =>
    rw [ofBigEndian_cons, List.length_cons, Nat.add_comm bs.length,
      bigEndian_append _ _ (ofBigEndian_lt bs), ih]
    simp [bigEndian]

theorem bigEndian_zero_left (k : ℕ) : bigEndian 0 k = List.replicate k 0 := by
  induction k with
  | zero => rfl
  | succ k ih => rw [bigEndian_succ, ih, Nat.zero_shiftRight, List.replicate_succ]; rfl

theorem ofBigEndian_of_zero {bs : List Byte} (h : ∀ b ∈ bs, b = 0) : ofBigEndian bs = 0 := by
  rw [List.eq_replicate_of_mem h, ← bigEndian_zero_left, ofBigEndian_bigEndian, Nat.zero_mod]

/-- The characters in front of the first zero. -/
def cString (bytes : List Byte) : List Byte := bytes.takeWhile (· ≠ 0)

theorem cString_eq {input : List Byte} (h : ∀ c ∈ input, c ≠ 0) : cString input = input :=
  List.takeWhile_eq_self_iff.mpr (by simpa using h)

theorem cString_append {value : List Byte} (hvalue : 0 ∉ value) (rest : List Byte) :
    cString (value ++ 0 :: rest) = value := by
  unfold cString
  rw [List.takeWhile_append_of_pos, List.takeWhile_cons_of_neg (by decide), List.append_nil]
  exact fun c hc => decide_eq_true fun h => hvalue (h ▸ hc)

theorem zero_notMem_cString (bytes : List Byte) : 0 ∉ cString bytes := by
  intro h
  have hzero := List.mem_takeWhile_imp (show 0 ∈ bytes.takeWhile (· ≠ 0) from h)
  exact absurd rfl (of_decide_eq_true hzero)

theorem length_cString_lt {bytes : List Byte} (h : 0 ∈ bytes) :
    (cString bytes).length < bytes.length := by
  refine lt_of_le_of_ne (List.takeWhile_sublist _).length_le fun hlen => ?_
  have hall : cString bytes = bytes := (List.takeWhile_sublist _).eq_of_length hlen
  exact zero_notMem_cString bytes (by rw [hall]; exact h)

theorem cString_append_of_mem {bytes : List Byte} (h : 0 ∈ bytes) (more : List Byte) :
    cString (bytes ++ more) = cString bytes := by
  unfold cString
  rw [List.takeWhile_append, if_neg]
  exact (length_cString_lt h).ne

end Plain
