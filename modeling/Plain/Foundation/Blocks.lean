import Mathlib.Data.List.Basic
import Mathlib.Data.List.Forall2
import Mathlib.Data.Nat.Notation

/-! # Lists made of blocks

Texts that stand one behind the other, each with a terminator, can be read back at their
places. Rows of one length that stand one behind the other can be read by row and column.
Some places of a list can be changed one after the other.
-/

namespace Plain

section Terminated

variable {α : Type*}

/-- The texts one behind the other, each followed by the terminator. -/
def terminated (z : α) (texts : List (List α)) : List α := texts.flatMap (· ++ [z])

theorem terminated_append (z : α) (texts more : List (List α)) :
    terminated z (texts ++ more) = terminated z texts ++ terminated z more := List.flatMap_append

theorem terminated_concat (z : α) (texts : List (List α)) (text : List α) :
    terminated z (texts ++ [text]) = terminated z texts ++ (text ++ [z]) := by
  simp [terminated]

theorem terminated_split {z : α} {texts : List (List α)} {k : ℕ} {text : List α}
    (h : texts[k]? = some text) :
    terminated z texts =
      terminated z (texts.take k) ++ (text ++ z :: terminated z (texts.drop (k + 1))) := by
  obtain ⟨hk, rfl⟩ := List.getElem?_eq_some_iff.mp h
  conv_lhs => rw [← List.take_append_drop k texts, terminated_append,
    List.drop_eq_getElem_cons hk]
  simp only [terminated, List.flatMap_cons, List.append_assoc, List.singleton_append]

/-- A text without the terminator is read back at its place. -/
theorem takeWhile_drop_terminated [DecidableEq α] {z : α} {texts : List (List α)} {k : ℕ}
    {text : List α} (h : texts[k]? = some text) (hz : z ∉ text) :
    ((terminated z texts).drop (terminated z (texts.take k)).length).takeWhile (· ≠ z) =
      text := by
  have hall : ∀ a ∈ text, (decide (a ≠ z)) = true := by
    intro a ha
    rw [decide_eq_true_eq]
    rintro rfl
    exact hz ha
  rw [terminated_split h, List.drop_left, List.takeWhile_append_of_pos hall]
  simp

theorem length_terminated_take_lt {z : α} {texts : List (List α)} {k : ℕ} {text : List α}
    (h : texts[k]? = some text) :
    (terminated z (texts.take k)).length < (terminated z texts).length := by
  rw [terminated_split h, List.length_append, List.length_append, List.length_cons]
  omega

end Terminated

section Rows

variable {α β : Type*} {row : α → List β} {n : ℕ}

theorem getElem?_flatMap_row {rows : List α} (h : ∀ a ∈ rows, (row a).length = n) {i j : ℕ}
    (hj : j < n) : (rows.flatMap row)[i * n + j]? = rows[i]?.bind fun a => (row a)[j]? := by
  induction rows generalizing i with
  | nil => simp
  | cons a rows ih =>
    have ha : (row a).length = n := h a List.mem_cons_self
    rw [List.flatMap_cons]
    cases i with
    | zero =>
      rw [Nat.zero_mul, Nat.zero_add, List.getElem?_append_left (by omega)]
      rfl
    | succ i =>
      have hpos : (i + 1) * n + j = n + (i * n + j) := by
        rw [Nat.succ_mul]
        omega
      rw [hpos, List.getElem?_append_right (by omega), ha, Nat.add_sub_cancel_left,
        ih fun a ha => h a (List.mem_cons_of_mem _ ha), List.getElem?_cons_succ]

theorem length_flatMap_row {rows : List α} (h : ∀ a ∈ rows, (row a).length = n) :
    (rows.flatMap row).length = rows.length * n := by
  induction rows with
  | nil => simp
  | cons a rows ih =>
    rw [List.flatMap_cons, List.length_append, h a List.mem_cons_self,
      ih fun a ha => h a (List.mem_cons_of_mem _ ha), List.length_cons, Nat.succ_mul]
    omega

end Rows

section Places

variable {α β : Type*}

/-- Changing some places one after the other changes each of them once. -/
theorem getElem?_foldl_modify (f : α → α) {places : List ℕ} (h : places.Nodup) (l : List α)
    (i : ℕ) :
    (places.foldl (fun l p => l.modify p f) l)[i]? =
      if i ∈ places then l[i]?.map f else l[i]? := by
  induction places generalizing l with
  | nil => simp
  | cons p places ih =>
    rw [List.nodup_cons] at h
    rw [List.foldl_cons, ih h.2, List.getElem?_modify]
    by_cases hp : i = p
    · subst hp
      simp [h.1]
    · have hne : p ≠ i := fun he => hp he.symm
      simp [hp, hne]

theorem length_foldl_modify (f : α → α) (places : List ℕ) (l : List α) :
    (places.foldl (fun l p => l.modify p f) l).length = l.length := by
  induction places generalizing l with
  | nil => rfl
  | cons p places ih => rw [List.foldl_cons, ih, List.length_modify]

theorem row_end_le {i rows : ℕ} (n : ℕ) (h : i < rows) : i * n + n ≤ rows * n := by
  rw [← Nat.succ_mul]
  exact Nat.mul_le_mul_right n h

theorem row_column_unique {n i j k m : ℕ} (hj : j < n) (hm : m < n)
    (h : i * n + j = k * n + m) : i = k ∧ j = m := by
  have hmod := congrArg (· % n) h
  have hdiv := congrArg (· / n) h
  simp only [Nat.mul_add_mod_self_right, Nat.mod_eq_of_lt hj, Nat.mod_eq_of_lt hm] at hmod
  have hn : 0 < n := Nat.zero_lt_of_lt hj
  simp only [Nat.mul_comm _ n, Nat.mul_add_div hn, Nat.div_eq_of_lt hj, Nat.div_eq_of_lt hm,
    Nat.add_zero] at hdiv
  exact ⟨hdiv, hmod⟩

theorem foldlM_isSome {f : β → α → Option β} {l : List α}
    (h : ∀ a ∈ l, ∀ b, (f b a).isSome) (b : β) : (l.foldlM f b).isSome := by
  induction l generalizing b with
  | nil => rfl
  | cons a l ih =>
    rw [List.foldlM_cons]
    obtain ⟨b', hb⟩ := Option.isSome_iff_exists.mp (h a List.mem_cons_self b)
    rw [hb, Option.bind_eq_bind, Option.bind_some]
    exact ih (fun a ha => h a (List.mem_cons_of_mem _ ha)) b'

theorem forall₂_getElem? {R : α → β → Prop} {l : List α} {m : List β}
    (h : List.Forall₂ R l m) {i : ℕ} {a : α} (ha : l[i]? = some a) :
    ∃ b, m[i]? = some b ∧ R a b := by
  obtain ⟨hi, rfl⟩ := List.getElem?_eq_some_iff.mp ha
  have hm : i < m.length := h.length_eq ▸ hi
  exact ⟨m[i], List.getElem?_eq_getElem hm, h.get hi hm⟩

end Places

end Plain
