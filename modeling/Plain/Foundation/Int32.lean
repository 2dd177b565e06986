import Mathlib.Algebra.Group.Int.Defs
import Mathlib.Algebra.Group.Nat.Defs

/-! # Numbers of 32 bits

The value of a signed expression that overflows is undefined. A conversion to 32 bits wraps
around, and so does an atomic variable.
-/

namespace Plain

/-- The value of an `int` expression, unless it overflows. -/
def int32 (n : ℤ) : Option ℤ := if -2 ^ 31 ≤ n ∧ n < 2 ^ 31 then some n else none

theorem int32_eq_some {n : ℤ} (h₁ : -2 ^ 31 ≤ n) (h₂ : n < 2 ^ 31) : int32 n = some n :=
  if_pos ⟨h₁, h₂⟩

theorem int32_eq_some_iff {n m : ℤ} :
    int32 n = some m ↔ n = m ∧ -2 ^ 31 ≤ n ∧ n < 2 ^ 31 := by
  unfold int32
  split
  · rename_i h
    rw [Option.some.injEq]
    exact ⟨fun he => ⟨he, h⟩, And.left⟩
  · rename_i h
    refine ⟨fun he => ?_, fun he => absurd he.2 h⟩
    cases he

def wrap32 (n : ℤ) : ℤ := n.bmod (2 ^ 32)

theorem wrap32_eq {n : ℤ} (h₁ : -2 ^ 31 ≤ n) (h₂ : n < 2 ^ 31) : wrap32 n = n :=
  Int.bmod_eq_of_le (by omega) (by omega)

theorem toInt_ofNat_eq_iff (n : ℕ) : (BitVec.ofNat 32 n).toInt = n ↔ n < 2 ^ 31 := by
  rw [BitVec.toInt_eq_toNat_cond, BitVec.toNat_ofNat]
  split <;> omega

end Plain
