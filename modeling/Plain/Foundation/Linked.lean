import Mathlib.Data.List.Nodup

/-! # Linked lists

Nodes of a singly linked list point to the next one or to nothing. A chain says which nodes the
pointers run through. Pushing a node in front and turning all pointers around are described by
what they do to the chain.
-/

namespace Plain.Linked

variable {ι : Type*}

/-- The pointers lead from `head` through the nodes of the list, and end there. -/
def Chain (next : ι → Option ι) : List ι → Option ι → Prop
  | [], head => head = none
  | i :: l, head => head = some i ∧ Chain next l (next i)

variable {next : ι → Option ι} {l done : List ι} {head prev : Option ι} {i : ι}

theorem Chain.push (h : Chain next l head) (hnext : next i = head) : Chain next (i :: l) (some i) :=
  ⟨rfl, hnext ▸ h⟩

variable [DecidableEq ι]

/-- The loop that turns the pointers around, for at most so many nodes. -/
def turn (next : ι → Option ι) : ℕ → Option ι → Option ι → Option ((ι → Option ι) × Option ι)
  | _, none, prev => some (next, prev)
  | 0, some _, _ => none
  | n + 1, some i, prev => turn (Function.update next i prev) n (next i) (some i)

theorem Chain.update (h : Chain next l head) (hi : i ∉ l) (p : Option ι) :
    Chain (Function.update next i p) l head := by
  induction l generalizing head with
  | nil => exact h
  | cons j l ih =>
    rw [List.mem_cons, not_or] at hi
    rw [Chain, Function.update_of_ne (Ne.symm hi.1)]
    exact ⟨h.1, ih h.2 hi.2⟩

theorem Chain.turn (h : Chain next l head) (hdone : Chain next done prev)
    (hnodup : (l ++ done).Nodup) {n : ℕ} (hn : l.length ≤ n) :
    ∃ next' head', Linked.turn next n head prev = some (next', head') ∧
      Chain next' (l.reverse ++ done) head' ∧ ∀ j, j ∉ l → next' j = next j := by
  induction l generalizing next head prev done n with
  | nil =>
    obtain rfl : head = none := h
    exact ⟨next, prev, by cases n <;> rfl, hdone, fun _ _ => rfl⟩
  | cons i l ih =>
    obtain ⟨rfl, hl⟩ := h
    obtain ⟨hi, hnodup⟩ := List.nodup_cons.mp hnodup
    obtain ⟨hil, hidone⟩ := not_or.mp (mt List.mem_append.mpr hi)
    cases n with
    | zero => simp at hn
    | succ n =>
      have hdone' : Chain (Function.update next i prev) (i :: done) (some i) :=
        ⟨rfl, by rw [Function.update_self]; exact hdone.update hidone prev⟩
      have hnodup' : (l ++ i :: done).Nodup :=
        List.nodup_middle.mpr (List.nodup_cons.mpr ⟨hi, hnodup⟩)
      obtain ⟨next', head', hturn, hchain, hkeep⟩ :=
        ih (hl.update hil prev) hdone' hnodup' (Nat.le_of_succ_le_succ hn)
      refine ⟨next', head', hturn, ?_, fun j hj => ?_⟩
      · rwa [List.reverse_cons, List.append_assoc]
      · rw [List.mem_cons, not_or] at hj
        rw [hkeep j hj.2, Function.update_of_ne hj.1]

end Plain.Linked
