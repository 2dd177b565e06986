import Plain.Foundation.BoundedQueue
import Plain.Ring.Refinement

/-! # The fixed ring and the bounded queue

A fixed ring never grows, so its counters only have to stay within its size of each
other modulo `2 ^ 64`. Every operation keeps this and acts on the contents as the
bounded queue does. `peek` compares the stored count with the requested one only:
asked for no element of an empty ring it returns the address of a cell that holds none.
-/

namespace Plain

open Circular

namespace Ring

variable {T : Type*} {k : RingClass} {SIZE : Capacity} {r : Ring T} [Inhabited T]

/-- The cell `peek` points to, `none` for a null pointer. -/
def peek (r : Ring T) (count : SizeT) : Option T :=
  if r.readAvail < count then none else some (r.buffer.getD (r.tail &&& r.mask).toNat default)

def elementAt (r : Ring T) (index : SizeT) : Option T :=
  if r.head - r.tail ≤ index then none
  else some (r.buffer.getD ((r.tail + index) &&& r.mask).toNat default)

def fixedStep (SIZE : Capacity) (r : Ring T) : BoundedQueue.Op T → Ring T × Queue.Answer T
  | .call op _ => r.step (.fixedRing SIZE) op
  | .peek count => (r, .element (r.peek count))
  | .elementAt index => (r, .element (r.elementAt index))

def fixedMachine (T : Type*) [Inhabited T] (SIZE : Capacity) :
    Machine (Ring T) (BoundedQueue.Op T) (Queue.Answer T) := ⟨fixedStep SIZE⟩

def PeeksStored (r : Ring T) : BoundedQueue.Op T → Prop
  | .peek count => count = 0 → r.head ≠ r.tail
  | _ => True

section Look

theorem head_eq_tail_iff : r.head = r.tail ↔ r.contents = [] := by
  rw [← List.length_eq_zero_iff, length_contents, readAvail]
  constructor
  · intro h
    simp [h]
  · intro h
    bv_omega

theorem getD_cell (h : r.Wf k) {i : SizeT} (hi : i.toNat < r.readAvail.toNat) :
    some (r.buffer.getD ((r.tail + i) &&& r.mask).toNat default) = r.contents[i.toNat]? := by
  have hcell : ((r.tail + i) &&& r.mask).toNat = (r.tail.toNat + i.toNat) % r.size.toNat := by
    rw [h.cell_eq, BitVec.toNat_add, Nat.mod_mod_of_dvd _ h.size_dvd]
  rw [hcell, contents, window, List.getElem?_map, List.getElem?_range hi]
  rfl

theorem elementAt_eq (h : r.Wf k) (index : SizeT) :
    r.elementAt index = r.contents[index.toNat]? := by
  unfold elementAt
  split
  · rename_i hle
    rw [BitVec.le_def] at hle
    exact (List.getElem?_eq_none (by simpa [readAvail] using hle)).symm
  · rename_i hlt
    rw [BitVec.le_def] at hlt
    exact getD_cell h (Nat.lt_of_not_le hlt)

/-- `peek` answers as the queue does unless nothing is stored and nothing is asked for. -/
theorem peek_eq_iff (h : r.Wf k) (count : SizeT) :
    r.peek count = (if r.contents.length < count.toNat then none else r.contents.head?) ↔
      (count = 0 → r.head ≠ r.tail) := by
  simp only [length_contents, peek, BitVec.lt_def]
  split
  · rename_i hlt
    refine iff_of_true rfl ?_
    rintro rfl
    exact absurd hlt (Nat.not_lt_zero _)
  · rename_i hlt
    by_cases he : r.head = r.tail
    · have hc := head_eq_tail_iff.mp he
      have h0 : count = 0 := by
        rw [readAvail, he, BitVec.sub_self] at hlt
        bv_omega
      simp [hc, h0, he]
    · refine iff_of_true ?_ fun _ => he
      have hpos : 0 < r.readAvail.toNat := by
        rw [readAvail]
        bv_omega
      have hc := getD_cell h (i := 0#64) hpos
      rw [BitVec.add_zero] at hc
      rw [hc, List.head?_eq_getElem?]
      rfl

end Look

section Store

theorem insert_fixed_spec (h : r.Wf (.fixedRing SIZE)) (data : T) :
    (r.step (.fixedRing SIZE) (.insert data)).1.Wf (.fixedRing SIZE) ∧
      (r.step (.fixedRing SIZE) (.insert data)).1.contents =
        (BoundedQueue.insert SIZE.val.toNat r.contents data).1 ∧
      (r.step (.fixedRing SIZE) (.insert data)).2 =
        (BoundedQueue.insert SIZE.val.toNat r.contents data).2 := by
  have hsize : r.size = SIZE.val := h.size_admits
  have hused := h.used_le
  by_cases hfull : r.head - r.tail = r.size
  · have hnot : ¬ r.contents.length < SIZE.val.toNat := by
      rw [length_contents, readAvail, hfull, hsize]
      exact Nat.lt_irrefl _
    simp only [step, insert, canInsert, hfull, if_true, resize, Bool.not_false,
      BoundedQueue.insert, if_neg hnot]
    exact ⟨h, trivial, trivial⟩
  · have hlt : r.readAvail.toNat < r.size.toNat :=
      lt_of_le_of_ne hused fun hn => hfull (BitVec.eq_of_toNat_eq hn)
    have hlen : r.contents.length < SIZE.val.toNat := by
      rw [length_contents, ← hsize]
      exact hlt
    simp only [step, insert, canInsert, hfull, if_false, Bool.not_true, Bool.false_eq_true,
      BoundedQueue.insert, if_pos hlen]
    exact ⟨wf_push h hlt data, contents_push h hlt data, trivial⟩

theorem write_fixed (h : r.Wf (.fixedRing SIZE)) {data : List T} (hsized : data.length < 2 ^ 64)
    (full : Bool) :
    r.write (.fixedRing SIZE) data full =
      if SIZE.val.toNat < r.contents.length + data.length ∧ full then (0, r)
      else (BitVec.ofNat 64 (min (SIZE.val.toNat - r.contents.length) data.length),
        r.copyIn (data.take (SIZE.val.toNat - r.contents.length))) := by
  have hsize : r.size = SIZE.val := h.size_admits
  have hused := h.used_le
  have hcount : (BitVec.ofNat 64 data.length).toNat = data.length := by
    rw [BitVec.toNat_ofNat]
    exact Nat.mod_eq_of_lt hsized
  have havail := toNat_writeAvail h
  rw [length_contents, ← hsize, ← havail]
  by_cases hlt : r.size - (r.head - r.tail) < BitVec.ofNat 64 data.length
  · have hgt := hlt
    rw [BitVec.lt_def, hcount] at hgt
    have hover : r.size.toNat < r.readAvail.toNat + data.length := by omega
    simp only [write, hlt, if_true, resize, true_and, Bool.false_eq_true, if_false, hover]
    rw [Nat.min_eq_left (Nat.le_of_lt hgt), BitVec.ofNat_toNat, BitVec.setWidth_eq]
  · have hle := hlt
    rw [BitVec.lt_def, hcount, Nat.not_lt] at hle
    have hfits : ¬ r.size.toNat < r.readAvail.toNat + data.length := by omega
    simp only [write, hlt, if_false, hfits, false_and]
    rw [Nat.min_eq_right hle, List.take_of_length_le hle]

theorem write_fixed_spec (h : r.Wf (.fixedRing SIZE)) {data : List T}
    (hsized : data.length < 2 ^ 64) (full : Bool) :
    (r.step (.fixedRing SIZE) (.write data full)).1.Wf (.fixedRing SIZE) ∧
      (r.step (.fixedRing SIZE) (.write data full)).1.contents =
        (BoundedQueue.write SIZE.val.toNat r.contents data full).1 ∧
      (r.step (.fixedRing SIZE) (.write data full)).2 =
        (BoundedQueue.write SIZE.val.toNat r.contents data full).2 := by
  have hsize : r.size = SIZE.val := h.size_admits
  have hused := h.used_le
  have hlen : r.contents.length ≤ SIZE.val.toNat := by
    rw [length_contents, ← hsize]
    exact hused
  simp only [step, write_fixed h hsized, BoundedQueue.write]
  split
  · exact ⟨h, rfl, rfl⟩
  · obtain ⟨hw, hc⟩ := copyIn_spec h (data.take (SIZE.val.toNat - r.contents.length))
      (by rw [List.length_take, ← length_contents, hsize]; omega)
    refine ⟨hw, hc, ?_⟩
    rw [BitVec.toNat_ofNat, Nat.mod_eq_of_lt (by omega)]

end Store

theorem fixedStep_refines (h : r.Wf (.fixedRing SIZE)) (op : BoundedQueue.Op T) :
    (r.fixedStep SIZE op).1.Wf (.fixedRing SIZE) ∧
      (r.fixedStep SIZE op).1.contents =
        (BoundedQueue.step SIZE.val.toNat r.contents op).1 ∧
      ((r.fixedStep SIZE op).2 = (BoundedQueue.step SIZE.val.toNat r.contents op).2 ↔
        r.PeeksStored op) := by
  cases op with
  | call op sized =>
    cases op with
    | insert data =>
      obtain ⟨hw, hc, ho⟩ := insert_fixed_spec h data
      exact ⟨hw, hc, iff_of_true ho trivial⟩
    | write data full =>
      obtain ⟨hw, hc, ho⟩ := write_fixed_spec h sized full
      exact ⟨hw, hc, iff_of_true ho trivial⟩
    | removeOne =>
      obtain ⟨hw, hc, ho⟩ := removeOne_spec h
      exact ⟨hw, hc, iff_of_true (congrArg Queue.Answer.element ho) trivial⟩
    | remove count =>
      obtain ⟨hw, hc, ho⟩ := remove_spec h count
      exact ⟨hw, hc, iff_of_true (congrArg Queue.Answer.count ho) trivial⟩
    | read count readOnly =>
      obtain ⟨hw, hc, ho⟩ := read_spec h count readOnly
      exact ⟨hw, hc, iff_of_true (congrArg Queue.Answer.elements ho) trivial⟩
    | consumerClear => exact ⟨wf_consumerClear h, contents_consumerClear, iff_of_true rfl trivial⟩
    | clear => exact ⟨(clear_spec h).1, (clear_spec h).2, iff_of_true rfl trivial⟩
  | peek count =>
    refine ⟨h, rfl, ?_⟩
    simp only [fixedStep, BoundedQueue.step, Queue.Answer.element.injEq]
    exact peek_eq_iff h count
  | elementAt index =>
    exact ⟨h, rfl, iff_of_true (congrArg Queue.Answer.element (elementAt_eq h index)) trivial⟩

/-- From any well-formed ring on, wrapped counters included, the contents are those of the
bounded queue, and so are the answers of exactly the runs that peek for no element only
when one is stored. -/
theorem fixed_run_refines (h : r.Wf (.fixedRing SIZE)) (ops : List (BoundedQueue.Op T)) :
    (((fixedMachine T SIZE).run r ops).1.Wf (.fixedRing SIZE) ∧
      ((fixedMachine T SIZE).run r ops).1.contents =
        ((BoundedQueue.machine T SIZE.val.toNat).run r.contents ops).1) ∧
      (((fixedMachine T SIZE).run r ops).2 =
        ((BoundedQueue.machine T SIZE.val.toNat).run r.contents ops).2 ↔
          (fixedMachine T SIZE).Along PeeksStored r ops) := by
  refine Machine.run_answers_eq_iff (fixedMachine T SIZE) (BoundedQueue.machine T SIZE.val.toNat)
    (R := fun r q => r.Wf (.fixedRing SIZE) ∧ r.contents = q) ?_ ⟨h, rfl⟩ ops
  rintro r _ op ⟨hw, rfl⟩
  obtain ⟨hw', hc, ho⟩ := fixedStep_refines hw op
  exact ⟨⟨hw', hc⟩, ho⟩

/-- A new fixed ring holds what the bounded queue of its size holds after every run, and
answers as it does in exactly the runs that peek for no element only when one is stored. -/
theorem fixedRing_refines_boundedQueue (SIZE : Capacity) (ops : List (BoundedQueue.Op T)) :
    ((fixedMachine T SIZE).run (make (.fixedRing SIZE)) ops).1.contents =
        ((BoundedQueue.machine T SIZE.val.toNat).run [] ops).1 ∧
      (((fixedMachine T SIZE).run (make (.fixedRing SIZE)) ops).2 =
        ((BoundedQueue.machine T SIZE.val.toNat).run [] ops).2 ↔
          (fixedMachine T SIZE).Along PeeksStored (make (.fixedRing SIZE)) ops) := by
  obtain ⟨⟨_, hc⟩, ho⟩ := fixed_run_refines (wf_make (.fixedRing SIZE) (T := T)) ops
  rw [contents_make] at hc ho
  exact ⟨hc, ho⟩

/-- A new ring of two cells hands out a cell for `peek()` although it stores nothing. -/
theorem fixedRing_peek_empty :
    ((fixedMachine ℕ ⟨2, by decide⟩).run (make (.fixedRing ⟨2, by decide⟩)) [.peek 0]).2 =
        [.element (some 0)] ∧
      ((BoundedQueue.machine ℕ 2).run [] [.peek 0]).2 = [.element none] := by
  decide

end Ring

end Plain
