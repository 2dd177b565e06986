import Mathlib.Data.List.Basic
import Mathlib.Data.Int.Notation

/-! # Reading a list out of step

A reader that is `d` places ahead of a list sees the list without its first `d` elements;
one that is behind still has padding in front. Whoever reads a block out of step and yet
gets the block, sees a block of padding.
-/

namespace Plain.Shift

variable {α : Type*} {z : α} {d : ℤ} {l x y : List α}

/-- What a reader `d` places ahead of `l` has before it; behind `l` it has padding left. -/
def shift (z : α) (d : ℤ) (l : List α) : List α := List.replicate (-d).toNat z ++ l.drop d.toNat

def PaddedTo (z : α) (l : List α) (m : ℤ) : Prop := ∀ b ∈ l.take m.toNat, b = z

@[simp] theorem shift_zero : shift z 0 l = l := rfl

theorem length_shift (h : d ≤ l.length) : ((shift z d l).length : ℤ) = l.length - d := by
  rw [shift, List.length_append, List.length_replicate, List.length_drop]
  omega

theorem drop_shift (k : ℕ) : (shift z d l).drop k = shift z (d + k) l := by
  rw [shift, List.drop_append, List.drop_replicate, List.length_replicate, List.drop_drop, shift]
  congr 2 <;> omega

theorem shift_replicate_append (s : ℕ) :
    shift z d (List.replicate s z ++ l) = shift z (d - s) l := by
  rw [shift, List.drop_append, List.drop_replicate, List.length_replicate, ← List.append_assoc,
    List.replicate_append_replicate, shift]
  congr 2 <;> omega

theorem shift_append (h : 0 ≤ d) : shift z (d + x.length) (x ++ l) = shift z d l := by
  have hx : (d + x.length).toNat = x.length + d.toNat := by omega
  have hd : (-(d + x.length)).toNat = (-d).toNat := by omega
  rw [shift, hx, hd, List.drop_append, List.drop_of_length_le (by omega), shift]
  simp

theorem padded_take_shift {k : ℕ} (h : PaddedTo z l (d + k)) :
    ∀ b ∈ (shift z d l).take k, b = z := by
  intro b hb
  rw [shift, List.take_append, List.take_replicate, List.length_replicate, List.mem_append] at hb
  rcases hb with hb | hb
  · exact List.eq_of_mem_replicate hb
  · rw [List.take_drop] at hb
    refine h b (List.take_subset_take_left _ ?_ (List.mem_of_mem_drop hb))
    omega

theorem padded_of_ahead {n : ℕ} (hn : 0 < n) (h : ((x ++ y).drop n).take x.length = x)
    (hy : PaddedTo z y n) : ∀ (i : ℕ) (a : α), x[i]? = some a → a = z := by
  have hnext (i : ℕ) (hi : i < x.length) : x[i]? = (x ++ y)[n + i]? := by
    conv_lhs => rw [← h]
    rw [List.getElem?_take_of_lt hi, List.getElem?_drop]
  -- from the end of the block towards its start: the element `n` places on is padding
  have hback : ∀ m i : ℕ, x.length ≤ i + m → ∀ a, x[i]? = some a → a = z := by
    intro m
    induction m with
    | zero =>
      intro i hi a ha
      rw [List.getElem?_eq_none (by omega)] at ha
      exact nomatch ha
    | succ m ih =>
      intro i hi a ha
      have hlt : i < x.length := (List.getElem?_eq_some_iff.mp ha).1
      rw [hnext i hlt] at ha
      by_cases hin : n + i < x.length
      · rw [List.getElem?_append_left hin] at ha
        exact ih (n + i) (by omega) a ha
      · rw [List.getElem?_append_right (by omega)] at ha
        refine hy a (List.mem_of_getElem? (i := n + i - x.length) ?_)
        rwa [List.getElem?_take_of_lt (by omega)]
  exact fun i => hback x.length i (by omega)

theorem padded_of_behind {n : ℕ} (hn : 0 < n)
    (h : (List.replicate n z ++ (x ++ y)).take x.length = x) :
    ∀ (i : ℕ) (a : α), x[i]? = some a → a = z := by
  intro i
  induction i using Nat.strongRecOn with
  | ind i ih =>
    intro a ha
    have hlt : i < x.length := (List.getElem?_eq_some_iff.mp ha).1
    rw [← h, List.getElem?_take_of_lt hlt] at ha
    by_cases hin : i < n
    · rw [List.getElem?_append_left (by simpa using hin)] at ha
      exact List.eq_of_mem_replicate (List.mem_of_getElem? ha)
    · rw [List.getElem?_append_right (by simpa using Nat.le_of_not_lt hin),
        List.length_replicate, List.getElem?_append_left (by omega)] at ha
      exact ih (i - n) (by omega) a ha

/-- A block that is read out of step, and is followed by padding where the reader is ahead,
is padding itself. -/
theorem padded_of_take_shift (hd : d ≠ 0) (h : (shift z d (x ++ y)).take x.length = x)
    (hy : PaddedTo z y d) : ∀ b ∈ x, b = z := by
  intro b hb
  obtain ⟨i, hi⟩ := List.mem_iff_getElem?.mp hb
  rcases Int.lt_or_lt_of_ne hd with hneg | hpos
  · have h0 : d.toNat = 0 := by omega
    rw [shift, h0, List.drop_zero] at h
    exact padded_of_behind (by omega) h i b hi
  · have h0 : (-d).toNat = 0 := by omega
    rw [shift, h0, List.replicate_zero, List.nil_append] at h
    exact padded_of_ahead (by omega) h (by rwa [Int.toNat_of_nonneg (by omega)]) i b hi

end Plain.Shift
