import Plain.Ring.Wellformed

/-! # The dynamic ring and the unbounded queue

Every operation that does not grow the ring acts on its contents as the queue
does. Growing changes the mask in place and moves no element, so it keeps the
contents when the stored counters mean the same cells under both masks. Runs
whose growing steps all meet this condition answer as the queue does.
-/

namespace Plain

open Circular

namespace Ring

variable {T : Type*} {k : RingClass} {SIZE : Capacity} {r : Ring T}

/-- No stored element changes its cell when the mask becomes that of `size`. -/
def Fits (r : Ring T) (size : SizeT) : Prop :=
  r.readAvail = 0 ∨ r.tail.toNat % size.toNat + r.readAvail.toNat ≤ r.size.toNat

instance (r : Ring T) (size : SizeT) : Decidable (r.Fits size) :=
  inferInstanceAs (Decidable (_ ∨ _))

/-- A growing step finds the stored elements in place and a size below `2 ^ 64`. -/
def GrowsInPlace (r : Ring T) : Queue.Op T → Prop
  | .insert _ => r.readAvail.toNat < 2 ^ 63 ∧
      (r.readAvail = r.size → r.Fits (r.size <<< 1))
  | .write data _ => r.readAvail.toNat + data.length ≤ 2 ^ 63 ∧
      (r.size.toNat < r.readAvail.toNat + data.length →
        r.Fits (growSize r.readAvail (BitVec.ofNat 64 data.length) 99 (r.size <<< 1)))
  | _ => True

instance (r : Ring T) : (op : Queue.Op T) → Decidable (r.GrowsInPlace op)
  | .insert _ => inferInstanceAs (Decidable (_ ∧ (_ → _)))
  | .write _ _ => inferInstanceAs (Decidable (_ ∧ (_ → _)))
  | .removeOne | .remove _ | .read _ _ | .consumerClear | .clear => .isTrue trivial

section Counters

theorem readAvail_advance (c : SizeT) (hc : c.toNat ≤ r.readAvail.toNat) :
    ({ r with tail := r.tail + c }).readAvail.toNat = r.readAvail.toNat - c.toNat := by
  have he : ({ r with tail := r.tail + c }).readAvail = r.readAvail - c := by
    simp only [readAvail]
    bv_omega
  rw [he, BitVec.toNat_sub_of_le (BitVec.le_def.mpr hc)]

theorem wf_advance (h : r.Wf k) (c : SizeT) (hc : c.toNat ≤ r.readAvail.toNat) :
    ({ r with tail := r.tail + c }).Wf k where
  size_pow := h.size_pow
  size_admits := h.size_admits
  mask_eq := h.mask_eq
  len_eq := h.len_eq
  used_le := by
    have := h.used_le
    rw [readAvail_advance c hc]
    change _ ≤ r.size.toNat
    omega

theorem contents_advance [Inhabited T] (h : r.Wf k) (c : SizeT)
    (hc : c.toNat ≤ r.readAvail.toNat) :
    ({ r with tail := r.tail + c }).contents = r.contents.drop c.toNat := by
  rw [contents, readAvail_advance c hc, contents, window_drop]
  simp only [BitVec.toNat_add]
  exact window_mod h.size_dvd

theorem wf_consumerClear (h : r.Wf k) : r.consumerClear.Wf k where
  size_pow := h.size_pow
  size_admits := h.size_admits
  mask_eq := h.mask_eq
  len_eq := h.len_eq
  used_le := by simp [consumerClear, readAvail]

@[simp] theorem contents_consumerClear [Inhabited T] : r.consumerClear.contents = [] := by
  simp [consumerClear, contents, readAvail]

end Counters

section Push

theorem readAvail_push (hlt : r.readAvail.toNat < r.size.toNat) (x : T) :
    (r.push x).readAvail.toNat = r.readAvail.toNat + 1 := by
  have he : (r.push x).readAvail = r.readAvail + 1 := by
    simp only [readAvail, push]
    bv_omega
  have := r.size.isLt
  rw [he, BitVec.toNat_add]
  simp
  omega

theorem wf_push (h : r.Wf k) (hlt : r.readAvail.toNat < r.size.toNat) (x : T) :
    (r.push x).Wf k where
  size_pow := h.size_pow
  size_admits := h.size_admits
  mask_eq := h.mask_eq
  len_eq := by simpa [push] using h.len_eq
  used_le := by rw [readAvail_push hlt]; exact hlt

theorem contents_push [Inhabited T] (h : r.Wf k) (hlt : r.readAvail.toNat < r.size.toNat) (x : T) :
    (r.push x).contents = r.contents ++ [x] := by
  rw [contents, readAvail_push hlt]
  simp only [push, h.cell_head]
  exact window_push hlt h.size_le_length

theorem copyIn_spec [Inhabited T] (h : r.Wf k) (xs : List T)
    (hle : r.readAvail.toNat + xs.length ≤ r.size.toNat) :
    (r.copyIn xs).Wf k ∧ (r.copyIn xs).contents = r.contents ++ xs := by
  induction xs generalizing r with
  | nil => exact ⟨h, by simp [copyIn]⟩
  | cons x xs ih =>
    simp only [List.length_cons] at hle
    have hlt : r.readAvail.toNat < r.size.toNat := by omega
    have hle' : (r.push x).readAvail.toNat + xs.length ≤ (r.push x).size.toNat := by
      rw [readAvail_push hlt]
      simp only [push]
      omega
    obtain ⟨hw, hc⟩ := ih (wf_push h hlt x) hle'
    refine ⟨hw, ?_⟩
    rw [contents_push h hlt] at hc
    rw [List.append_assoc] at hc
    exact hc

end Push

section Read

theorem toNat_clip (avail count : SizeT) :
    (if avail < count then avail else count).toNat = min count.toNat avail.toNat := by
  split <;> rename_i h <;> rw [BitVec.lt_def] at h <;> omega

theorem consume_spec [Inhabited T] (h : r.Wf k) {count c : SizeT}
    (hc : c.toNat = min count.toNat r.readAvail.toNat) :
    (r.consume c).Wf k ∧ (r.consume c).contents = r.contents.drop count.toNat := by
  by_cases he : c = r.readAvail
  · have hn : r.readAvail.toNat ≤ count.toNat := by rw [he] at hc; omega
    have hr : r.consume c = r.consumerClear := if_pos he
    rw [hr, contents_consumerClear, List.drop_of_length_le (by simpa using hn)]
    exact ⟨wf_consumerClear h, rfl⟩
  · have hne : c.toNat ≠ r.readAvail.toNat := fun hn => he (BitVec.eq_of_toNat_eq hn)
    have hle : c.toNat ≤ r.readAvail.toNat := by omega
    have hr : r.consume c = { r with tail := r.tail + c } := if_neg he
    have hcount : c.toNat = count.toNat := by omega
    rw [hr, contents_advance h c hle, hcount]
    exact ⟨wf_advance h c hle, rfl⟩

theorem remove_spec [Inhabited T] (h : r.Wf k) (count : SizeT) :
    (r.remove count).2.Wf k ∧ (r.remove count).2.contents = r.contents.drop count.toNat ∧
      (r.remove count).1.toNat = min count.toNat r.contents.length := by
  have hc := toNat_clip r.readAvail count
  obtain ⟨hw, hd⟩ := consume_spec h hc
  exact ⟨hw, hd, by rw [length_contents]; exact hc⟩

theorem copyOut_eq_window [Inhabited T] (h : r.Wf k) (n : ℕ) (t : SizeT) :
    r.copyOut n t = window r.buffer r.size.toNat t.toNat n := by
  induction n generalizing t with
  | zero => rfl
  | succ n ih =>
    rw [copyOut, ih, window_cons, h.cell_eq]
    congr 1
    simpa using window_mod (b := r.buffer) (t := t.toNat + 1) (k := n) h.size_dvd

theorem read_spec [Inhabited T] (h : r.Wf k) (count : SizeT) (readOnly : Bool) :
    (r.read count readOnly).2.Wf k ∧
      (r.read count readOnly).2.contents =
        (if readOnly then r.contents else r.contents.drop count.toNat) ∧
      (r.read count readOnly).1 = r.contents.take count.toNat := by
  have hc := toNat_clip r.readAvail count
  have hout : (r.read count readOnly).1 = r.contents.take count.toNat := by
    change r.copyOut (if r.readAvail < count then r.readAvail else count).toNat r.tail = _
    rw [copyOut_eq_window h, hc, ← window_take (Nat.min_le_right _ _), ← contents]
    simp [List.take_eq_take_iff]
  cases readOnly with
  | true => exact ⟨h, by simp [read], hout⟩
  | false =>
    obtain ⟨hw, hd⟩ := consume_spec h hc
    exact ⟨hw, hd, hout⟩

theorem removeOne_spec [Inhabited T] (h : r.Wf k) :
    r.removeOne.2.Wf k ∧ r.removeOne.2.contents = r.contents.tail ∧
      r.removeOne.1 = r.contents.head? := by
  by_cases he : r.tail = r.head
  · have h0 : r.contents = [] := by
      apply List.eq_nil_of_length_eq_zero
      simp [readAvail, he]
    simp [removeOne, he, h, h0]
  · have hpos : 1 ≤ r.readAvail.toNat := by simp only [readAvail]; bv_omega
    obtain ⟨n, hn⟩ := Nat.exists_eq_add_of_le' hpos
    simp only [removeOne, he, if_false]
    refine ⟨wf_advance h 1 (by simpa using hpos), ?_, ?_⟩
    · rw [contents_advance h 1 (by simpa using hpos)]
      simp
    · rw [contents, hn, window_cons, h.cell_eq, List.head?_cons]

end Read

section Grow

theorem resize_dynamic [Inhabited T] {size : SizeT} (hsize : size ≠ 0) :
    resize (.dynamicRing SIZE) r size =
      (true, r.setBuffer (vectorResize r.buffer size.toNat) size) := by
  simp only [resize, if_neg hsize]

@[simp] theorem length_vectorResize [Inhabited T] (b : List T) (n : ℕ) :
    (vectorResize b n).length = n := by
  simp [vectorResize]
  omega

theorem wf_grow [Inhabited T] (h : r.Wf (.dynamicRing SIZE)) {size : SizeT}
    (hpow : size.toNat.isPowerOfTwo) (hle : r.size.toNat ≤ size.toNat) :
    (r.setBuffer (vectorResize r.buffer size.toNat) size).Wf (.dynamicRing SIZE) where
  size_pow := hpow
  size_admits := le_trans h.size_admits hle
  mask_eq := rfl
  len_eq := by simp [setBuffer, RingClass.slots]
  used_le := le_trans h.used_le hle

theorem contents_grow [Inhabited T] (h : r.Wf (.dynamicRing SIZE)) {size : SizeT}
    (hpow : size.toNat.isPowerOfTwo) (hle : r.size.toNat ≤ size.toNat) (hfit : r.Fits size) :
    (r.setBuffer (vectorResize r.buffer size.toNat) size).contents = r.contents := by
  have hlen : r.buffer.length = r.size.toNat := h.len_eq
  rcases hfit with h0 | hfit
  · have h0' : (r.setBuffer (vectorResize r.buffer size.toNat) size).readAvail = 0 := h0
    simp [contents, h0, h0']
  · obtain ⟨i, hi⟩ := h.size_pow
    obtain ⟨j, hj⟩ := hpow
    have hij : i ≤ j := (Nat.pow_le_pow_iff_right Nat.one_lt_two).mp (hi ▸ hj ▸ hle)
    have hd : r.size.toNat ∣ size.toNat := by rw [hi, hj]; exact Nat.pow_dvd_pow 2 hij
    have ht : r.buffer.take size.toNat = r.buffer :=
      List.take_of_length_le (by rw [hlen]; exact hle)
    have hpos : 0 < size.toNat := lt_of_lt_of_le h.size_pos hle
    simp only [contents, setBuffer, vectorResize, ht]
    exact window_grow hd hpos hlen.ge hfit

theorem isPowerOfTwo_shiftLeft_one {size : SizeT} (h : size.toNat.isPowerOfTwo)
    (hlt : size.toNat < 2 ^ 63) :
    (size <<< 1).toNat = 2 * size.toNat ∧ (size <<< 1).toNat.isPowerOfTwo := by
  have he : (size <<< 1).toNat = 2 * size.toNat := by
    rw [BitVec.toNat_shiftLeft, Nat.shiftLeft_eq]
    omega
  refine ⟨he, ?_⟩
  rw [he, Nat.mul_comm]
  exact Nat.isPowerOfTwo_mul_two_of_isPowerOfTwo h

theorem growSize_spec (used count : SizeT) {size : SizeT} {i : ℕ} (h : size.toNat.isPowerOfTwo)
    (hused : used.toNat ≤ size.toNat) (hfit : used.toNat + count.toNat ≤ 2 ^ 63)
    (hi : 2 ^ 63 ≤ size.toNat * 2 ^ i) :
    (growSize used count i size).toNat.isPowerOfTwo ∧
      size.toNat ≤ (growSize used count i size).toNat ∧
      used.toNat + count.toNat ≤ (growSize used count i size).toNat := by
  induction i generalizing size with
  | zero => exact ⟨h, le_rfl, by simp [growSize]; omega⟩
  | succ i ih =>
    have hsub : (size - used).toNat = size.toNat - used.toNat :=
      BitVec.toNat_sub_of_le (BitVec.le_def.mpr hused)
    rw [growSize]
    split
    · rename_i hle
      rw [BitVec.le_def, hsub] at hle
      exact ⟨h, le_rfl, by omega⟩
    · rename_i hle
      rw [BitVec.le_def, hsub] at hle
      obtain ⟨he, hp⟩ := isPowerOfTwo_shiftLeft_one h (by omega)
      obtain ⟨h₁, h₂, h₃⟩ := ih hp (by omega)
        (by rw [he, Nat.mul_comm 2, Nat.mul_assoc, ← Nat.pow_succ']; exact hi)
      exact ⟨h₁, by omega, h₃⟩

/-- `insert` pushes onto the ring or, when that is full, onto the ring grown to twice its size. -/
theorem insert_eq_push [Inhabited T] (h : r.Wf (.dynamicRing SIZE)) (data : T)
    (hlt : r.readAvail.toNat < 2 ^ 63) :
    ∃ g : Ring T, g.Wf (.dynamicRing SIZE) ∧ g.readAvail = r.readAvail ∧
      g.readAvail.toNat < g.size.toNat ∧
      r.insert (.dynamicRing SIZE) data = (true, g.push data) ∧
      ((r.readAvail = r.size → r.Fits (r.size <<< 1)) → g.contents = r.contents) := by
  by_cases hfull : r.readAvail = r.size
  · obtain ⟨he, hp⟩ := isPowerOfTwo_shiftLeft_one h.size_pow (hfull ▸ hlt)
    have hpos := h.size_pos
    have hne : r.size <<< 1 ≠ 0 := fun h0 => by simp [h0] at he; omega
    refine ⟨r.setBuffer (vectorResize r.buffer (r.size <<< 1).toNat) (r.size <<< 1),
      wf_grow h hp (by omega), rfl, ?_, ?_, fun hfit => contents_grow h hp (by omega) (hfit hfull)⟩
    · change r.readAvail.toNat < (r.size <<< 1).toNat
      rw [hfull]
      omega
    · rw [readAvail] at hfull
      simp [insert, canInsert, hfull, resize_dynamic hne]
  · refine ⟨r, h, rfl, ?_, ?_, fun _ => rfl⟩
    · have := h.used_le
      have : r.readAvail.toNat ≠ r.size.toNat := fun hn => hfull (BitVec.eq_of_toNat_eq hn)
      omega
    · rw [readAvail] at hfull
      simp [insert, canInsert, hfull]

theorem insert_spec [Inhabited T] (h : r.Wf (.dynamicRing SIZE)) (data : T)
    (hg : r.GrowsInPlace (.insert data)) :
    (r.insert (.dynamicRing SIZE) data).2.Wf (.dynamicRing SIZE) ∧
      (r.insert (.dynamicRing SIZE) data).2.contents = r.contents ++ [data] ∧
      (r.insert (.dynamicRing SIZE) data).1 = true := by
  obtain ⟨hlt, hfit⟩ := hg
  obtain ⟨g, hw, _, hroom, hr, hc⟩ := insert_eq_push h data hlt
  rw [hr]
  exact ⟨wf_push hw hroom data, by rw [contents_push hw hroom, hc hfit], rfl⟩

theorem toNat_writeAvail (h : r.Wf k) :
    (r.size - (r.head - r.tail)).toNat = r.size.toNat - r.readAvail.toNat :=
  BitVec.toNat_sub_of_le (BitVec.le_def.mpr h.used_le)

theorem write_fits [Inhabited T] (h : r.Wf (.dynamicRing SIZE)) {data : List T} (full : Bool)
    (hcount : (BitVec.ofNat 64 data.length).toNat = data.length)
    (hfit : r.readAvail.toNat + data.length ≤ r.size.toNat) :
    r.write (.dynamicRing SIZE) data full = (BitVec.ofNat 64 data.length, r.copyIn data) := by
  have havail := toNat_writeAvail h
  have hnlt : ¬ r.size - (r.head - r.tail) < BitVec.ofNat 64 data.length := by
    rw [BitVec.lt_def]
    omega
  simp only [write, if_neg hnlt]

theorem write_grown [Inhabited T] (h : r.Wf (.dynamicRing SIZE)) {data : List T} (full : Bool)
    (hcount : (BitVec.ofNat 64 data.length).toNat = data.length)
    (hgrow : r.size.toNat < r.readAvail.toNat + data.length) {size : SizeT}
    (hsize : size = growSize r.readAvail (BitVec.ofNat 64 data.length) 99 (r.size <<< 1))
    (hw : (r.setBuffer (vectorResize r.buffer size.toNat) size).Wf (.dynamicRing SIZE))
    (hfit : r.readAvail.toNat + data.length ≤ size.toNat) :
    r.write (.dynamicRing SIZE) data full = (BitVec.ofNat 64 data.length,
      (r.setBuffer (vectorResize r.buffer size.toNat) size).copyIn data) := by
  have hused := h.used_le
  have havail := toNat_writeAvail h
  have havail' := toNat_writeAvail hw
  simp only [setBuffer, readAvail] at hsize hfit havail'
  have hlt : r.size - (r.head - r.tail) < BitVec.ofNat 64 data.length := by
    rw [BitVec.lt_def]
    omega
  have hnlt : ¬ size - (r.head - r.tail) < BitVec.ofNat 64 data.length := by
    rw [BitVec.lt_def]
    omega
  have hne : size ≠ 0 := by
    rintro rfl
    exact absurd hw.size_pos (Nat.lt_irrefl 0)
  simp only [write, if_pos hlt, ← hsize, resize_dynamic hne, if_true]
  simp [setBuffer, hnlt]

theorem write_eq_copyIn [Inhabited T] (h : r.Wf (.dynamicRing SIZE)) (data : List T) (full : Bool)
    (hle : r.readAvail.toNat + data.length ≤ 2 ^ 63) :
    ∃ g : Ring T, g.Wf (.dynamicRing SIZE) ∧ g.readAvail = r.readAvail ∧
      g.readAvail.toNat + data.length ≤ g.size.toNat ∧
      r.write (.dynamicRing SIZE) data full = (BitVec.ofNat 64 data.length, g.copyIn data) ∧
      ((r.size.toNat < r.readAvail.toNat + data.length →
        r.Fits (growSize r.readAvail (BitVec.ofNat 64 data.length) 99 (r.size <<< 1))) →
        g.contents = r.contents) := by
  have hcount : (BitVec.ofNat 64 data.length).toNat = data.length := by
    rw [BitVec.toNat_ofNat]
    omega
  have hused := h.used_le
  by_cases hgrow : r.size.toNat < r.readAvail.toNat + data.length
  · set size := growSize r.readAvail (BitVec.ofNat 64 data.length) 99 (r.size <<< 1) with hsize
    obtain ⟨he, hp⟩ := isPowerOfTwo_shiftLeft_one h.size_pow (by omega)
    have hpos := h.size_pos
    obtain ⟨hpow, hle₁, hle₂⟩ := growSize_spec r.readAvail
      (BitVec.ofNat 64 data.length) (i := 99) hp (by omega) (by omega)
      (by rw [he]; omega)
    rw [← hsize, hcount] at hle₂
    rw [← hsize] at hpow hle₁
    have hw := wf_grow h hpow (by omega)
    exact ⟨_, hw, rfl, hle₂, write_grown h full hcount hgrow hsize hw hle₂,
      fun hfit => contents_grow h hpow (by omega) (hfit hgrow)⟩
  · exact ⟨r, h, rfl, by omega, write_fits h full hcount (by omega), fun _ => rfl⟩

theorem write_spec [Inhabited T] (h : r.Wf (.dynamicRing SIZE)) (data : List T) (full : Bool)
    (hg : r.GrowsInPlace (.write data full)) :
    (r.write (.dynamicRing SIZE) data full).2.Wf (.dynamicRing SIZE) ∧
      (r.write (.dynamicRing SIZE) data full).2.contents = r.contents ++ data ∧
      (r.write (.dynamicRing SIZE) data full).1.toNat = data.length := by
  obtain ⟨hle, hfit⟩ := hg
  obtain ⟨g, hw, _, hroom, hr, hc⟩ := write_eq_copyIn h data full hle
  obtain ⟨hw', hc'⟩ := copyIn_spec hw data hroom
  rw [hr]
  exact ⟨hw', by rw [hc', hc hfit], by rw [BitVec.toNat_ofNat]; omega⟩

theorem clear_spec [Inhabited T] (h : r.Wf k) :
    (r.clear k).Wf k ∧ (r.clear k).contents = [] := by
  refine ⟨?_, contents_consumerClear (r := (resize k r 0).2)⟩
  cases k with
  | fixedRing SIZE => exact wf_consumerClear h
  | dynamicRing SIZE =>
    exact ⟨SIZE.isPowerOfTwo, le_rfl, rfl, length_vectorResize _ _, by simp [clear, readAvail]⟩

end Grow

/-- One operation that grows in place, if at all, acts as on the queue. -/
theorem step_refines [Inhabited T] (h : r.Wf (.dynamicRing SIZE)) (op : Queue.Op T)
    (hg : r.GrowsInPlace op) :
    (r.step (.dynamicRing SIZE) op).1.Wf (.dynamicRing SIZE) ∧
      (r.step (.dynamicRing SIZE) op).1.contents = (Queue.step r.contents op).1 ∧
      (r.step (.dynamicRing SIZE) op).2 = (Queue.step r.contents op).2 := by
  cases op with
  | insert data =>
    obtain ⟨hw, hc, ho⟩ := insert_spec h data hg
    exact ⟨hw, hc, congrArg Queue.Answer.flag ho⟩
  | removeOne =>
    obtain ⟨hw, hc, ho⟩ := removeOne_spec h
    exact ⟨hw, hc, congrArg Queue.Answer.element ho⟩
  | remove count =>
    obtain ⟨hw, hc, ho⟩ := remove_spec h count
    exact ⟨hw, hc, congrArg Queue.Answer.count ho⟩
  | write data full =>
    obtain ⟨hw, hc, ho⟩ := write_spec h data full hg
    exact ⟨hw, hc, congrArg Queue.Answer.count ho⟩
  | read count readOnly =>
    obtain ⟨hw, hc, ho⟩ := read_spec h count readOnly
    exact ⟨hw, hc, congrArg Queue.Answer.elements ho⟩
  | consumerClear => exact ⟨wf_consumerClear h, contents_consumerClear, rfl⟩
  | clear => exact ⟨(clear_spec h).1, (clear_spec h).2, rfl⟩

/-- A new dynamic ring answers every run as the unbounded queue does, provided the
steps that grow it find the stored elements in place. -/
theorem dynamicRing_refines_queue [Inhabited T] (SIZE : Capacity) (ops : List (Queue.Op T))
    (hg : (machine T (.dynamicRing SIZE)).Along GrowsInPlace (make (.dynamicRing SIZE)) ops) :
    ((machine T (.dynamicRing SIZE)).run (make (.dynamicRing SIZE)) ops).2 =
        ((Queue.machine T).run [] ops).2 ∧
      ((machine T (.dynamicRing SIZE)).run (make (.dynamicRing SIZE)) ops).1.contents =
        ((Queue.machine T).run [] ops).1 := by
  have hstep (r : Ring T) (q : List T) (op : Queue.Op T)
      (hr : r.Wf (.dynamicRing SIZE) ∧ r.contents = q) (hop : r.GrowsInPlace op) :
      (((machine T (.dynamicRing SIZE)).step r op).1.Wf (.dynamicRing SIZE) ∧
        ((machine T (.dynamicRing SIZE)).step r op).1.contents =
          ((Queue.machine T).step q op).1) ∧
        ((machine T (.dynamicRing SIZE)).step r op).2 = ((Queue.machine T).step q op).2 := by
    obtain ⟨hw, rfl⟩ := hr
    obtain ⟨h₁, h₂, h₃⟩ := step_refines hw op hop
    exact ⟨⟨h₁, h₂⟩, h₃⟩
  obtain ⟨⟨_, hc⟩, ho⟩ := Machine.run_simulates _ (Queue.machine T) hstep
    ⟨wf_make _, contents_make⟩ hg
  exact ⟨ho, hc⟩

/-- Two slots, grown twice while the stored elements lie in order. -/
theorem dynamicRing_refines_queue_growing :
    ((machine ℕ (.dynamicRing ⟨2, by decide⟩)).run (make (.dynamicRing ⟨2, by decide⟩))
        [.insert 1, .insert 2, .insert 3, .removeOne, .write [4, 5, 6] true, .read 5 false]).2 =
      [.flag true, .flag true, .flag true, .element (some 1), .count 3,
        .elements [2, 3, 4, 5, 6]] :=
  (dynamicRing_refines_queue ⟨2, by decide⟩ _ (by decide)).1.trans (by decide)

/-- Two slots, grown while the stored elements wrap around the end: the second one is lost. -/
theorem dynamicRing_loses_wrapped :
    ((machine ℕ (.dynamicRing ⟨2, by decide⟩)).run (make (.dynamicRing ⟨2, by decide⟩))
        [.insert 1, .insert 2, .removeOne, .insert 3, .insert 4, .read 3 false]).2.getLast? =
        some (.elements [2, 0, 4]) ∧
      ((Queue.machine ℕ).run []
        [.insert 1, .insert 2, .removeOne, .insert 3, .insert 4, .read 3 false]).2.getLast? =
        some (.elements [2, 3, 4]) := by decide

end Ring

end Plain
