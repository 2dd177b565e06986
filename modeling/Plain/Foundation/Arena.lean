import Mathlib.Algebra.Order.Ring.Int
import Mathlib.Algebra.GroupWithZero.Nat
import Mathlib.Data.List.Perm.Basic
import Mathlib.Data.Nat.Notation

/-! # Arenas

An arena hands out blocks from its end downwards. It counts the bytes that are left and the bytes
that were given back, and it starts anew when these are all the bytes that it has ever taken off.
The bytes of a block that does not fit are taken off too, and then it never starts anew.
-/

namespace Plain.Arena

structure Extent where
  offset : ℕ
  size : ℕ
  deriving DecidableEq, Repr

def Extent.Apart (b c : Extent) : Prop :=
  b.offset + b.size ≤ c.offset ∨ c.offset + c.size ≤ b.offset

theorem Extent.Apart.symm {b c : Extent} (h : b.Apart c) : c.Apart b := Or.symm h

def total (blocks : List Extent) : ℕ := (blocks.map Extent.size).sum

@[simp] theorem total_nil : total [] = 0 := rfl

@[simp] theorem total_cons (b : Extent) (blocks : List Extent) :
    total (b :: blocks) = b.size + total blocks := by
  simp [total]

/-- The blocks that an arena of this size has handed out and not got back. -/
structure Packed (size : ℕ) (available deallocated : ℤ) (blocks : List Extent) : Prop where
  above : ∀ b ∈ blocks, available ≤ b.offset
  inside : ∀ b ∈ blocks, b.offset + b.size ≤ size
  pos : ∀ b ∈ blocks, 0 < b.size
  apart : blocks.Pairwise Extent.Apart
  nonneg : 0 ≤ deallocated
  counted : 0 ≤ available → deallocated + total blocks = size - available
  bounded : available < 0 → deallocated + total blocks ≤ size
  whole : blocks = [] → 0 ≤ available → deallocated = 0

variable {size n : ℕ} {available deallocated : ℤ} {blocks blocks' : List Extent} {b : Extent}

theorem packed_new (size : ℕ) : Packed size size 0 [] where
  above _ h := absurd h List.not_mem_nil
  inside _ h := absurd h List.not_mem_nil
  pos _ h := absurd h List.not_mem_nil
  apart := List.Pairwise.nil
  nonneg := Int.le_refl 0
  counted _ := by simp
  bounded h := by simp
  whole _ _ := rfl

namespace Packed

theorem perm (h : Packed size available deallocated blocks) (hp : blocks.Perm blocks') :
    Packed size available deallocated blocks' := by
  have htotal : total blocks' = total blocks := (hp.map Extent.size).sum_nat.symm
  exact {
    above := fun b hb => h.above b (hp.mem_iff.mpr hb)
    inside := fun b hb => h.inside b (hp.mem_iff.mpr hb)
    pos := fun b hb => h.pos b (hp.mem_iff.mpr hb)
    apart := (hp.pairwise_iff fun hbc => Extent.Apart.symm hbc).mp h.apart
    nonneg := h.nonneg
    counted := fun ha => by rw [htotal, h.counted ha]
    bounded := fun ha => by rw [htotal]; exact h.bounded ha
    whole := fun hb ha => h.whole (by subst hb; exact hp.eq_nil) ha }

theorem total_le (h : Packed size available deallocated blocks) :
    deallocated + total blocks ≤ size := by
  rcases Int.lt_or_le available 0 with hneg | hpos
  · exact h.bounded hneg
  · rw [h.counted hpos]
    omega

theorem reserve (h : Packed size available deallocated blocks) (hn : 0 < n)
    (ha : 0 ≤ available - n) :
    Packed size (available - n) deallocated (⟨(available - n).toNat, n⟩ :: blocks) := by
  have hcount := h.counted (by omega)
  exact {
    above := by
      rintro b (_ | ⟨_, hb⟩)
      · simp only
        omega
      · have := h.above b hb
        omega
    inside := by
      rintro b (_ | ⟨_, hb⟩)
      · have := h.nonneg
        simp only
        omega
      · exact h.inside b hb
    pos := List.forall_mem_cons.mpr ⟨hn, h.pos⟩
    apart := by
      refine List.pairwise_cons.mpr ⟨fun b hb => .inl ?_, h.apart⟩
      have := h.above b hb
      simp only
      omega
    nonneg := h.nonneg
    counted := fun _ => by
      rw [total_cons]
      push_cast
      omega
    bounded := fun hx => by omega
    whole := fun hx => by cases hx }

theorem overdraw (h : Packed size available deallocated blocks) (ha : available - n < 0) :
    Packed size (available - n) deallocated blocks where
  above b hb := by
    have := h.above b hb
    omega
  inside := h.inside
  pos := h.pos
  apart := h.apart
  nonneg := h.nonneg
  counted hx := by omega
  bounded _ := h.total_le
  whole _ hx := by omega

theorem release (h : Packed size available deallocated (b :: blocks))
    (hd : deallocated + b.size ≠ size - available) :
    Packed size available (deallocated + b.size) blocks where
  above c hc := h.above c (List.mem_cons_of_mem b hc)
  inside c hc := h.inside c (List.mem_cons_of_mem b hc)
  pos c hc := h.pos c (List.mem_cons_of_mem b hc)
  apart := (List.pairwise_cons.mp h.apart).2
  nonneg := by
    have := h.nonneg
    omega
  counted ha := by
    have := h.counted ha
    rw [total_cons] at this
    push_cast at this
    omega
  bounded ha := by
    have := h.bounded ha
    rw [total_cons] at this
    push_cast at this
    omega
  whole hb ha := by
    subst hb
    have := h.counted ha
    simp at this
    omega

/-- The last block is given back, and no bytes are lost. -/
theorem complete (h : Packed size available deallocated (b :: blocks))
    (hd : deallocated + b.size = size - available) : 0 ≤ available ∧ blocks = [] := by
  have ha : 0 ≤ available := by
    by_contra hneg
    have := h.bounded (by omega)
    rw [total_cons] at this
    push_cast at this
    omega
  refine ⟨ha, ?_⟩
  have hcount := h.counted ha
  rw [total_cons] at hcount
  push_cast at hcount
  cases blocks with
  | nil => rfl
  | cons c blocks =>
    have hc := h.pos c (List.mem_cons_of_mem b List.mem_cons_self)
    rw [total_cons] at hcount
    push_cast at hcount
    omega

end Packed

end Plain.Arena
