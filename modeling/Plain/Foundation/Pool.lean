import Mathlib.Data.List.Perm.Basic

/-! # Pools

A pool is a list of running activities. One of them is replaced when it takes a step
and erased when it ends; counts of the others do not change.
-/

namespace Plain.Pool

variable {α : Type*} {l : List α} {k : ℕ} {a : α} (p : α → Bool)

theorem countP_set (h : l[k]? = some a) (b : α) :
    (l.set k b).countP p + (p a).toNat = l.countP p + (p b).toNat := by
  obtain ⟨hk, rfl⟩ := List.getElem?_eq_some_iff.mp h
  have hle := List.boole_getElem_le_countP (p := p) hk
  rw [List.countP_set hk]
  generalize l.countP p = n at hle ⊢
  generalize p l[k] = x at hle ⊢
  cases x <;> cases p b <;> simp at hle ⊢ <;> omega

theorem countP_eraseIdx (h : l[k]? = some a) :
    (l.eraseIdx k).countP p + (p a).toNat = l.countP p := by
  obtain ⟨hk, rfl⟩ := List.getElem?_eq_some_iff.mp h
  rw [← (List.getElem_cons_eraseIdx_perm hk).countP_eq, List.countP_cons]
  cases p l[k] <;> rfl

theorem cons_set_perm (h : l[k]? = some a) (b : α) : List.Perm (a :: l.set k b) (b :: l) := by
  obtain ⟨hk, rfl⟩ := List.getElem?_eq_some_iff.mp h
  have hset : List.Perm (b :: l.eraseIdx k) (l.set k b) := by
    have hk' : k < (l.set k b).length := by rwa [List.length_set]
    have hperm := List.getElem_cons_eraseIdx_perm hk'
    rwa [List.getElem_set_self, List.eraseIdx_set_eq] at hperm
  calc List.Perm (l[k] :: l.set k b) (l[k] :: b :: l.eraseIdx k) := hset.symm.cons _
    List.Perm _ (b :: l[k] :: l.eraseIdx k) := List.Perm.swap _ _ _
    List.Perm _ (b :: l) := (List.getElem_cons_eraseIdx_perm hk).cons _

theorem countP_pos (h : l[k]? = some a) (ha : p a = true) : 0 < l.countP p :=
  List.countP_pos_iff.mpr ⟨a, List.mem_of_getElem? h, ha⟩

section Lookup

variable {j : ℕ} {b c : α}

theorem getElem?_set_eq_some (h : l[k]? = some a) :
    (l.set k b)[j]? = some c ↔ j = k ∧ b = c ∨ j ≠ k ∧ l[j]? = some c := by
  obtain ⟨hk, -⟩ := List.getElem?_eq_some_iff.mp h
  by_cases hj : j = k
  · subst hj
    simp [List.getElem?_set_self hk]
  · simp [List.getElem?_set_ne (Ne.symm hj), hj]

theorem getElem?_set_of_ne (h : l[k]? = some a) (ha : a ≠ c) (hb : b ≠ c) :
    (l.set k b)[j]? = some c ↔ l[j]? = some c := by
  rw [getElem?_set_eq_some h]
  constructor
  · rintro (⟨-, rfl⟩ | ⟨-, hj⟩)
    · exact absurd rfl hb
    · exact hj
  · intro hj
    refine .inr ⟨?_, hj⟩
    rintro rfl
    exact ha (Option.some.inj (h.symm.trans hj))

theorem getElem?_of_set (h : (l.set k b)[j]? = some c) (hb : b ≠ c) : l[j]? = some c := by
  by_cases hj : k = j
  · subst hj
    rw [List.getElem?_set_self', Option.map_eq_map, Option.map_eq_some_iff] at h
    obtain ⟨_, _, hbc⟩ := h
    exact absurd hbc hb
  · rwa [List.getElem?_set_ne hj] at h

theorem getElem?_concat_eq_some (h : c ≠ a) : (l ++ [a])[j]? = some c ↔ l[j]? = some c := by
  rcases Nat.lt_trichotomy j l.length with hj | rfl | hj
  · rw [List.getElem?_append_left hj]
  · simp [Ne.symm h]
  · have hlen : (l ++ [a]).length ≤ j := by
      rwa [List.length_append]
    rw [List.getElem?_eq_none hlen, List.getElem?_eq_none (Nat.le_of_lt hj)]

end Lookup

end Plain.Pool
