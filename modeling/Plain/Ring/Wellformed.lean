import Plain.Foundation.Circular
import Plain.Ring.Basic

/-! # Well-formed rings and their contents

A well-formed ring has a power of two as its size, the matching mask, enough
storage and no more elements than cells. Its contents are the circular window
between the tail and the head.
-/

namespace Plain

open Circular

/-- The cells a class allocates for a ring of `n` elements. -/
def RingClass.slots : RingClass → ℕ → ℕ
  | .fixedRing _, n => n + 1
  | .dynamicRing _, n => n

def RingClass.Admits : RingClass → SizeT → Prop
  | .fixedRing SIZE, size => size = SIZE.val
  | .dynamicRing SIZE, size => SIZE.val.toNat ≤ size.toNat

theorem Capacity.isPowerOfTwo (SIZE : Capacity) : SIZE.val.toNat.isPowerOfTwo := by
  obtain ⟨hne, hand⟩ := SIZE.power_of_two
  have hpos : SIZE.val.toNat ≠ 0 := fun h => hne (BitVec.eq_of_toNat_eq h)
  apply (Nat.and_sub_one_eq_zero_iff_isPowerOfTwo hpos).mp
  have hsub : (SIZE.val - 1).toNat = SIZE.val.toNat - 1 :=
    BitVec.toNat_sub_of_le (by rw [BitVec.le_def]; simp; omega)
  rw [← hsub, ← BitVec.toNat_and, hand]
  rfl

namespace Ring

variable {T : Type*} {k : RingClass} {r : Ring T}

/-- The invariant of a ring of class `k`. -/
structure Wf (k : RingClass) (r : Ring T) : Prop where
  size_pow : r.size.toNat.isPowerOfTwo
  size_admits : k.Admits r.size
  mask_eq : r.mask = r.size - 1
  len_eq : r.buffer.length = k.slots r.size.toNat
  used_le : r.readAvail.toNat ≤ r.size.toNat

/-- The stored elements, oldest first. -/
def contents [Inhabited T] (r : Ring T) : List T :=
  window r.buffer r.size.toNat r.tail.toNat r.readAvail.toNat

namespace Wf

theorem size_pos (h : r.Wf k) : 0 < r.size.toNat := Nat.pos_of_isPowerOfTwo h.size_pow

theorem size_dvd (h : r.Wf k) : r.size.toNat ∣ 2 ^ 64 := by
  obtain ⟨j, hj⟩ := h.size_pow
  have hlt := r.size.isLt
  rw [hj] at hlt ⊢
  exact Nat.pow_dvd_pow 2 (le_of_lt ((Nat.pow_lt_pow_iff_right Nat.one_lt_two).mp hlt))

theorem size_le_length (h : r.Wf k) : r.size.toNat ≤ r.buffer.length := by
  rw [h.len_eq]
  cases k <;> simp [RingClass.slots]

theorem toNat_mask (h : r.Wf k) : r.mask.toNat = r.size.toNat - 1 := by
  have hp := h.size_pos
  rw [h.mask_eq]
  exact BitVec.toNat_sub_of_le (by rw [BitVec.le_def]; simp; omega)

theorem cell_eq (h : r.Wf k) (c : SizeT) : (c &&& r.mask).toNat = c.toNat % r.size.toNat := by
  obtain ⟨j, hj⟩ := h.size_pow
  rw [BitVec.toNat_and, h.toNat_mask, hj, Nat.and_two_pow_sub_one_eq_mod]

theorem cell_head (h : r.Wf k) :
    (r.head &&& r.mask).toNat = (r.tail.toNat + r.readAvail.toNat) % r.size.toNat := by
  have hh : r.head.toNat = (r.tail.toNat + r.readAvail.toNat) % 2 ^ 64 := by
    rw [← BitVec.toNat_add, readAvail, BitVec.add_comm, BitVec.sub_add_cancel]
  rw [h.cell_eq, hh, Nat.mod_mod_of_dvd _ h.size_dvd]

end Wf

@[simp] theorem length_contents [Inhabited T] : r.contents.length = r.readAvail.toNat := by
  simp [contents]

theorem wf_make [Inhabited T] (k : RingClass) : (make k : Ring T).Wf k := by
  cases k <;> constructor <;>
    simp [make, setBuffer, RingClass.Admits, RingClass.slots, readAvail, vectorResize,
      Capacity.isPowerOfTwo]

@[simp] theorem contents_make [Inhabited T] : (make k : Ring T).contents = [] := by
  cases k <;> simp [make, setBuffer, contents, readAvail]

end Ring

end Plain
