import Mathlib.Data.List.TakeWhile
import Mathlib.Data.Nat.Digits.Defs
import Plain.Foundation.Bytes

/-! # Decimal numbers

The text of a number, and the number at the beginning of a text.
-/

namespace Plain

section Digits

def digitByte (d : ℕ) : Byte := BitVec.ofNat 8 (48 + d)

def isDigit (b : Byte) : Bool := 48 ≤ b.toNat ∧ b.toNat ≤ 57

/-- `std::to_string` of an unsigned number. -/
def decimal (n : ℕ) : List Byte :=
  if n = 0 then [digitByte 0] else (Nat.digits 10 n).reverse.map digitByte

def digitsValue (bytes : List Byte) : ℕ := bytes.foldl (fun n b => 10 * n + (b.toNat - 48)) 0

theorem toNat_digitByte {d : ℕ} (hd : d < 10) : (digitByte d).toNat = 48 + d := by
  rw [digitByte, BitVec.toNat_ofNat]
  omega

theorem isDigit_digitByte {d : ℕ} (hd : d < 10) : isDigit (digitByte d) = true := by
  rw [isDigit, toNat_digitByte hd, decide_eq_true_eq]
  omega

theorem isDigit_of_mem_decimal {n : ℕ} {b : Byte} (h : b ∈ decimal n) : isDigit b = true := by
  unfold decimal at h
  split at h
  · obtain rfl := List.mem_singleton.mp h
    exact isDigit_digitByte (by decide)
  · obtain ⟨d, hd, rfl⟩ := List.mem_map.mp h
    exact isDigit_digitByte (Nat.digits_lt_base (by decide) (List.mem_reverse.mp hd))

theorem decimal_ne_nil (n : ℕ) : decimal n ≠ [] := by
  unfold decimal
  split
  · exact List.cons_ne_nil _ _
  · next h => simpa using Nat.digits_ne_nil_iff_ne_zero.mpr h

theorem digitsValue_map_reverse {ds : List ℕ} (h : ∀ d ∈ ds, d < 10) :
    digitsValue (ds.reverse.map digitByte) = Nat.ofDigits 10 ds := by
  induction ds with
  | nil => rfl
  | cons d ds ih =>
    rw [List.forall_mem_cons] at h
    rw [List.reverse_cons, List.map_append, digitsValue, List.foldl_append, ← digitsValue, ih h.2,
      Nat.ofDigits_cons]
    simp [toNat_digitByte h.1]
    omega

theorem digitsValue_decimal (n : ℕ) : digitsValue (decimal n) = n := by
  unfold decimal
  split
  · next h => exact h.symm
  · rw [digitsValue_map_reverse fun d hd => Nat.digits_lt_base (by decide) hd,
      Nat.ofDigits_digits]

end Digits

section Strtoll

def isSpace (b : Byte) : Bool := b = 0x20 ∨ (9 ≤ b.toNat ∧ b.toNat ≤ 13)

/-- The sign in front of a number: whether it is a minus, and the rest. -/
def signOf : List Byte → Bool × List Byte
  | [] => (false, [])
  | b :: bs => if b = 0x2d then (true, bs) else if b = 0x2b then (false, bs) else (false, b :: bs)

/-- `strtoll` in base ten: blanks, a sign and digits. A number that does not fit is the greatest
or the smallest that does. -/
def strtoll (bytes : List Byte) : ℤ :=
  let (negative, bytes) := signOf (bytes.dropWhile isSpace)
  let n : ℤ := digitsValue (bytes.takeWhile isDigit)
  if negative then max (-n) (-2 ^ 63) else min n (2 ^ 63 - 1)

theorem signOf_digits {bytes : List Byte} (h : ∀ b ∈ bytes, isDigit b = true) :
    signOf bytes = (false, bytes) := by
  cases bytes with
  | nil => rfl
  | cons b bs =>
    have hb : isDigit b = true := h b List.mem_cons_self
    have h₁ : b ≠ 0x2d := by
      rintro rfl
      exact absurd hb (by decide)
    have h₂ : b ≠ 0x2b := by
      rintro rfl
      exact absurd hb (by decide)
    rw [signOf, if_neg h₁, if_neg h₂]

theorem strtoll_decimal {n : ℕ} (hn : n < 2 ^ 63) : strtoll (decimal n) = n := by
  have hdigit (b : Byte) (hb : b ∈ decimal n) : isDigit b = true := isDigit_of_mem_decimal hb
  have hspace : (decimal n).dropWhile isSpace = decimal n := by
    cases hd : decimal n with
    | nil => rfl
    | cons b bs =>
      have hb : isDigit b = true := hdigit b (hd ▸ List.mem_cons_self)
      refine List.dropWhile_cons_of_neg ?_
      simp only [isDigit, isSpace, decide_eq_true_eq] at hb ⊢
      rintro (rfl | hb')
      · exact absurd hb (by decide)
      · omega
  have htake : (decimal n).takeWhile isDigit = decimal n := List.takeWhile_eq_self_iff.mpr hdigit
  simp only [strtoll, hspace, signOf_digits hdigit, htake, digitsValue_decimal]
  rw [if_neg Bool.false_ne_true]
  omega

end Strtoll

end Plain
