import Mathlib.Data.List.GetD
import Mathlib.Data.Nat.ModEq

/-! # Circular windows of a list

A window reads `k` cells of a list, from position `t` on and modulo `n`. It is
pushed at its end, dropped at its start and carried over to a larger modulus as
long as no read cell moves.
-/

namespace Plain.Circular

variable {T : Type*} [Inhabited T]

/-- The cells at `t`, `t + 1`, …, `t + k - 1` modulo `n`. -/
def window (b : List T) (n t k : ℕ) : List T :=
  (List.range k).map fun i => b.getD ((t + i) % n) default

variable {b : List T} {n m t k : ℕ} {x : T}

@[simp] theorem length_window : (window b n t k).length = k := by simp [window]

@[simp] theorem window_zero : window b n t 0 = [] := rfl

theorem window_succ :
    window b n t (k + 1) = window b n t k ++ [b.getD ((t + k) % n) default] := by
  simp [window, List.range_succ]

theorem window_cons :
    window b n t (k + 1) = b.getD (t % n) default :: window b n (t + 1) k := by
  simp [window, List.range_succ_eq_map, Function.comp_def, Nat.add_assoc, Nat.add_comm 1]

theorem window_congr {b' : List T} {n' t' : ℕ}
    (h : ∀ i < k, b.getD ((t + i) % n) default = b'.getD ((t' + i) % n') default) :
    window b n t k = window b' n' t' k :=
  List.map_congr_left fun i hi => h i (List.mem_range.mp hi)

theorem window_mod (h : n ∣ m) : window b n (t % m) k = window b n t k := by
  apply window_congr
  intro i _
  rw [Nat.add_mod, Nat.mod_mod_of_dvd t h, ← Nat.add_mod]

theorem window_take {c : ℕ} (h : c ≤ k) : (window b n t k).take c = window b n t c := by
  rw [window, ← List.map_take, List.take_range, Nat.min_eq_left h, window]

theorem window_drop (c : ℕ) : (window b n t k).drop c = window b n (t + c) (k - c) := by
  induction c generalizing t k with
  | zero => rfl
  | succ c ih =>
    cases k with
    | zero => simp
    | succ k =>
      rw [window_cons, List.drop_succ_cons, ih]
      congr 1 <;> omega

theorem window_eq_take (hn : k ≤ n) (hb : k ≤ b.length) : window b n 0 k = b.take k := by
  induction k with
  | zero => rfl
  | succ k ih =>
    rw [window_succ, ih (by omega) (by omega), List.take_succ_eq_append_getElem (by omega),
      Nat.zero_add, Nat.mod_eq_of_lt (by omega), List.getD_eq_getElem]

theorem mod_ne_of_lt {i j : ℕ} (hij : i < j) (hj : j < n) : (t + j) % n ≠ (t + i) % n := by
  intro h
  have hd : n ∣ (t + j) - (t + i) := (Nat.modEq_iff_dvd' (by omega)).mp h.symm
  have := Nat.le_of_dvd (by omega) hd
  omega

theorem window_set_next (hk : k < n) :
    window (b.set ((t + k) % n) x) n t k = window b n t k := by
  apply window_congr
  intro i hi
  simp [List.getD_eq_getElem?_getD, List.getElem?_set_ne (mod_ne_of_lt hi hk)]

/-- Writing the first free cell pushes the element at the end of the window. -/
theorem window_push (hk : k < n) (hb : n ≤ b.length) :
    window (b.set ((t + k) % n) x) n t (k + 1) = window b n t k ++ [x] := by
  have hlt : (t + k) % n < b.length := lt_of_lt_of_le (Nat.mod_lt _ (by omega)) hb
  rw [window_succ, window_set_next hk]
  simp [List.getD_eq_getElem?_getD, hlt]

/-- A larger modulus reads the same cells when the window stays below the old one. -/
theorem window_grow {c : List T} (hn : n ∣ m) (hm : 0 < m) (hb : n ≤ b.length)
    (hfit : t % m + k ≤ n) : window (b ++ c) m t k = window b n t k := by
  apply window_congr
  intro i hi
  have hle : n ≤ m := Nat.le_of_dvd hm hn
  have hm' : (t + i) % m = t % m + i := by
    rw [Nat.add_mod, Nat.mod_eq_of_lt (show i < m by omega), Nat.mod_eq_of_lt (by omega)]
  have hn' : (t + i) % n = t % m + i := by
    rw [← Nat.mod_mod_of_dvd (t + i) hn, hm', Nat.mod_eq_of_lt (by omega)]
  rw [hm', hn', List.getD_append _ _ _ _ (by omega)]

end Plain.Circular
