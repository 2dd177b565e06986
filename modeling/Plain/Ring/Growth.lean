import Plain.Ring.Refinement

/-! # Growing dynamic rings

A dynamic ring may lose elements when it grows, but its fields stay in step: the size
is a power of two, the vector has that many cells, the mask belongs to it and the
counters are no further apart. This holds as long as no call stores more than `2 ^ 63`
elements, where doubling the size would leave `std::size_t`.
-/

namespace Plain

namespace Ring

variable {T : Type*} {SIZE : Capacity} {r : Ring T}

/-- The elements stored after the call are at most `2 ^ 63`. -/
def InRange (r : Ring T) : Queue.Op T → Prop
  | .insert _ => r.readAvail.toNat + 1 ≤ 2 ^ 63
  | .write data _ => r.readAvail.toNat + data.length ≤ 2 ^ 63
  | _ => True

instance (r : Ring T) : (op : Queue.Op T) → Decidable (r.InRange op)
  | .insert _ => inferInstanceAs (Decidable (_ ≤ _))
  | .write _ _ => inferInstanceAs (Decidable (_ ≤ _))
  | .removeOne | .remove _ | .read _ _ | .consumerClear | .clear => .isTrue trivial

variable [Inhabited T]

theorem readAvail_copyIn {k : RingClass} (h : r.Wf k) (xs : List T)
    (hle : r.readAvail.toNat + xs.length ≤ r.size.toNat) :
    (r.copyIn xs).readAvail.toNat = r.readAvail.toNat + xs.length := by
  obtain ⟨_, hc⟩ := copyIn_spec h xs hle
  have hlen := congrArg List.length hc
  rw [List.length_append, length_contents, length_contents] at hlen
  exact hlen

theorem wf_insert (h : r.Wf (.dynamicRing SIZE)) (data : T) (hc : r.InRange (.insert data)) :
    (r.insert (.dynamicRing SIZE) data).2.Wf (.dynamicRing SIZE) := by
  obtain ⟨g, hw, _, hroom, hr, _⟩ := insert_eq_push h data hc
  rw [hr]
  exact wf_push hw hroom data

theorem wf_write (h : r.Wf (.dynamicRing SIZE)) (data : List T) (full : Bool)
    (hc : r.InRange (.write data full)) :
    (r.write (.dynamicRing SIZE) data full).2.Wf (.dynamicRing SIZE) := by
  obtain ⟨g, hw, _, hroom, hr, _⟩ := write_eq_copyIn h data full hc
  rw [hr]
  exact (copyIn_spec hw data hroom).1

theorem write_counts (h : r.Wf (.dynamicRing SIZE)) (data : List T) (full : Bool)
    (hc : r.InRange (.write data full)) :
    (r.write (.dynamicRing SIZE) data full).1.toNat = data.length ∧
      (r.write (.dynamicRing SIZE) data full).2.readAvail.toNat =
        r.readAvail.toNat + data.length := by
  obtain ⟨g, hw, havail, hroom, hr, _⟩ := write_eq_copyIn h data full hc
  rw [hr]
  constructor
  · have hle : r.readAvail.toNat + data.length ≤ 2 ^ 63 := hc
    rw [BitVec.toNat_ofNat]
    omega
  · rw [readAvail_copyIn hw data hroom, havail]

theorem wf_step (op : Queue.Op T) (h : r.Wf (.dynamicRing SIZE)) (hc : r.InRange op) :
    ((machine T (.dynamicRing SIZE)).step r op).1.Wf (.dynamicRing SIZE) := by
  cases op with
  | insert data => exact wf_insert h data hc
  | removeOne => exact (removeOne_spec h).1
  | remove count => exact (remove_spec h count).1
  | write data full => exact wf_write h data full hc
  | read count readOnly => exact (read_spec h count readOnly).1
  | consumerClear => exact wf_consumerClear h
  | clear => exact (clear_spec h).1

/-- In every state that calls within the range lead to, one more such call keeps the size a
power of two of at least `SIZE`, the vector and the mask of that size and the counters within
it, and a `write` stores and reports all of its elements. -/
theorem dynamicRing_growth (SIZE : Capacity) (ops : List (Queue.Op T)) (op : Queue.Op T)
    (hops : (machine T (.dynamicRing SIZE)).Along InRange (make (.dynamicRing SIZE)) ops)
    (hop : ((machine T (.dynamicRing SIZE)).run (make (.dynamicRing SIZE)) ops).1.InRange op) :
    let before := ((machine T (.dynamicRing SIZE)).run (make (.dynamicRing SIZE)) ops).1
    let after := (before.step (.dynamicRing SIZE) op).1
    after.size.toNat.isPowerOfTwo ∧ SIZE.val.toNat ≤ after.size.toNat ∧
      after.buffer.length = after.size.toNat ∧ after.mask = after.size - 1 ∧
      (after.head - after.tail).toNat ≤ after.size.toNat ∧
      ∀ data full, op = .write data full →
        (before.step (.dynamicRing SIZE) op).2 = .count data.length ∧
          after.readAvail.toNat = before.readAvail.toNat + data.length := by
  intro before after
  have hstep (r : Ring T) (op : Queue.Op T) : r.Wf (.dynamicRing SIZE) → r.InRange op →
      ((machine T (.dynamicRing SIZE)).step r op).1.Wf (.dynamicRing SIZE) := wf_step op
  have hbefore : before.Wf (.dynamicRing SIZE) :=
    (machine T (.dynamicRing SIZE)).run_invariant hstep (wf_make _) hops
  have hafter : after.Wf (.dynamicRing SIZE) := wf_step op hbefore hop
  refine ⟨hafter.size_pow, hafter.size_admits, hafter.len_eq, hafter.mask_eq, hafter.used_le, ?_⟩
  rintro data full rfl
  obtain ⟨hcount, havail⟩ := write_counts hbefore data full hop
  exact ⟨congrArg Queue.Answer.count hcount, havail⟩

/-- Two slots with a wrapped pair of elements, grown to eight by a write of five. -/
theorem dynamicRing_growth_wrapped :
    let before := ((machine ℕ (.dynamicRing ⟨2, by decide⟩)).run
      (make (.dynamicRing ⟨2, by decide⟩)) [.insert 1, .insert 2, .removeOne, .insert 3]).1
    before.size = 2 ∧ before.readAvail = 2 ∧
      (before.step (.dynamicRing ⟨2, by decide⟩) (.write [4, 5, 6, 7, 8] true)).1.buffer.length =
        (before.step (.dynamicRing ⟨2, by decide⟩) (.write [4, 5, 6, 7, 8] true)).1.size.toNat ∧
      (before.step (.dynamicRing ⟨2, by decide⟩) (.write [4, 5, 6, 7, 8] true)).1.size = 8 :=
  ⟨by decide, by decide, (dynamicRing_growth ⟨2, by decide⟩ _ _ (by decide) (by decide)).2.2.1,
    by decide⟩

end Ring

end Plain
