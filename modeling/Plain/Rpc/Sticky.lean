import Plain.Rpc.Signed
import Plain.Rpc.Tracking
import Plain.Rpc.Unsigned

/-! # Errors that stay

In every other shape some input makes a read fail and is unpacked without an error at
the end: a length check fails, and a nested object behind it is unpacked as it should.
-/

namespace Plain.Rpc

open Unpacker

/-- A value of the shape takes these bytes, whatever follows them, and changes the error
and the note in this way. -/
def Takes (s : Shape) (bs rest : List Byte) (before after : ErrorCode × Bool) : Prop :=
  s.exec (⟨bs ++ rest, 0, before.1⟩, before.2) = (⟨rest, 0, after.1⟩, after.2)

section Steps

variable {β : Type} {s t : Shape} {bs cs rest : List Byte} {x y z : ErrorCode × Bool}

theorem step_eq {f : Unpacker → β × Unpacker} (hf : Reads False False f) {r r' : List Byte}
    {v : β} (failed : Bool) (h : f (of r) = (v, ⟨r', 0, if failed then .outOfRange else .none⟩))
    (e : ErrorCode) (b : Bool) :
    f ⟨r, 0, e⟩ = (v, ⟨r', 0, if failed then .outOfRange else e⟩) ∧
      step (fun u => (f u).2) (⟨r, 0, e⟩, b) =
        (⟨r', 0, if failed then .outOfRange else e⟩, b || failed) := by
  obtain ⟨v₁, r₁, o₁, failed₁, hl⟩ := hf r 0 (Or.inl rfl)
  have heq := (hl.eq .none).symm.trans h
  simp only [Prod.mk.injEq, Unpacker.mk.injEq] at heq
  obtain ⟨rfl, rfl, rfl, herr⟩ := heq
  obtain rfl : failed₁ = failed := by
    cases failed₁ <;> cases failed <;> simp at herr ⊢
  refine ⟨hl.eq e, ?_⟩
  simp only [step, hl.eq]
  cases failed₁ <;> simp

theorem takes_read {f : Unpacker → β × Unpacker} (hf : Reads False False f)
    (hs : s.exec = step fun u => (f u).2) {v : β} (h : f (of (bs ++ rest)) = (v, of rest)) :
    Takes s bs rest x x := by
  have hstep := (step_eq hf false h x.1 x.2).2
  rw [Takes, hs, hstep, Bool.or_false]
  rfl

theorem takes_tupleCons (hs : Takes s bs (cs ++ rest) x y) (ht : Takes t cs rest y z) :
    Takes (.tupleCons s t) (bs ++ cs) rest x z := by
  rw [Takes, List.append_assoc]
  change t.exec (s.exec _) = _
  rw [hs]
  exact ht

/-- One shape is a container of another, with this mask for short ones. -/
def Contains (c s : Shape) (mask : Byte) : Prop :=
  ∀ n < 16, ∀ r e b, c.exec (⟨(BitVec.ofNat 8 n ||| mask) :: r, 0, e⟩, b) =
    Nat.iterate s.exec n (⟨r, 0, e⟩, b)

theorem step_unpackSize (h : Header) {n : ℕ} (hn : n < 16) (r : List Byte) (e : ErrorCode)
    (b : Bool) :
    unpackSize h ⟨(BitVec.ofNat 8 n ||| h.mask) :: r, 0, e⟩ = (BitVec.ofNat 64 n, ⟨r, 0, e⟩) ∧
      step (fun u => (unpackSize h u).2) (⟨(BitVec.ofNat 8 n ||| h.mask) :: r, 0, e⟩, b) =
        (⟨r, 0, e⟩, b) := by
  have hsize : unpackSize h (of ([BitVec.ofNat 8 n ||| h.mask] ++ r)) =
      (BitVec.ofNat 64 n, of r) :=
    unpackSize_packSize h (if_pos hn)
  have hstep := step_eq (Reads.unpackSize h) false hsize e b
  rwa [Bool.or_false] at hstep

theorem contains_array : Contains (.array s) s Header.array.mask := by
  intro n hn r e b
  obtain ⟨hsize, hstep⟩ := step_unpackSize .array hn r e b
  rw [Shape.exec]
  simp only [hsize, hstep]
  rw [BitVec.toNat_ofNat, Nat.mod_eq_of_lt (by omega)]

theorem contains_map : Contains (.map s t) (.tupleCons s t) Header.map.mask := by
  intro n hn r e b
  obtain ⟨hsize, hstep⟩ := step_unpackSize .map hn r e b
  rw [Shape.exec]
  simp only [hsize, hstep]
  rw [BitVec.toNat_ofNat, Nat.mod_eq_of_lt (by omega)]
  rfl

theorem takes_container {c : Shape} {mask : Byte} (hc : Contains c s mask)
    (hs : Takes s bs rest x y) : Takes c ((1 ||| mask) :: bs) rest x y :=
  (hc 1 (by decide) _ _ _).trans hs

theorem takes_container_two {c : Shape} {mask : Byte} (hc : Contains c s mask)
    (hs : Takes s bs (cs ++ rest) x y) (ht : Takes s cs rest y z) :
    Takes c ((2 ||| mask) :: (bs ++ cs)) rest x z := by
  refine (hc 2 (by decide) _ _ _).trans ?_
  change s.exec (s.exec (⟨bs ++ cs ++ rest, 0, x.1⟩, x.2)) = _
  rw [List.append_assoc, hs]
  exact ht

theorem takes_object (hbs : bs.length < 2 ^ 32 - 1) (hs : Takes s bs [] (.none, false) y) :
    Takes (.object s) (packBytes bs) rest x (y.1, x.2 || y.2) := by
  have hread : unpackBytes [] (of (packBytes bs ++ rest)) = (bs, of rest) :=
    unpackBytes_packBytes hbs []
  obtain ⟨hbytes, hstep⟩ := step_eq (Reads.unpackBytes []) false hread x.1 x.2
  rw [Takes, List.append_nil] at hs
  rw [Takes]
  simp only [Shape.exec, hbytes, hstep, of, hs, Bool.or_false]

/-- The largest size behind a tag, with less to follow. -/
def excess (t : Tag) : List Byte := t.toByte :: bigEndian (2 ^ 32 - 1) 4

theorem takeBytes_excess (hrest : rest.length < 2 ^ 32 - 1) :
    takeBytes (accumulate 4 (0 : BitVec 64) (of (bigEndian (2 ^ 32 - 1) 4 ++ rest))).1.toNat []
        (accumulate 4 (0 : BitVec 64) (of (bigEndian (2 ^ 32 - 1) 4 ++ rest))).2 =
      ([], ⟨rest, 0, .outOfRange⟩) := by
  rw [accumulate_size (by decide)]
  dsimp only
  rw [takeBytes, if_neg]
  · rfl
  · rintro ⟨-, hle⟩
    have hsize : (BitVec.ofNat 64 (2 ^ 32 - 1)).toNat = 2 ^ 32 - 1 := by decide
    rw [hsize] at hle
    exact absurd hle (Nat.not_le.mpr hrest)

theorem unpackBytes_excess (hrest : rest.length < 2 ^ 32 - 1) :
    unpackBytes [] (of (excess .bin32 ++ rest)) = ([], ⟨rest, 0, .outOfRange⟩) := by
  rw [excess, List.cons_append, of, unpackBytes, data_cons]
  dsimp only
  rw [increment_cons, if_pos rfl]
  exact takeBytes_excess hrest

theorem unpackString_excess (hrest : rest.length < 2 ^ 32 - 1) :
    unpackString [] (of (excess .str32 ++ rest)) = ([], ⟨rest, 0, .outOfRange⟩) := by
  rw [excess, List.cons_append, of, unpackString, data_cons]
  dsimp only
  rw [increment_cons, if_pos rfl]
  exact takeBytes_excess hrest

theorem takes_object_excess (hrest : rest.length < 2 ^ 32 - 1) :
    Takes (.object s) (excess .bin32) rest x ((s.run (of [])).error, true) := by
  obtain ⟨hbytes, hstep⟩ := step_eq (Reads.unpackBytes []) true
    (unpackBytes_excess hrest) x.1 x.2
  rw [Takes]
  simp only [Shape.exec, hbytes, hstep, Bool.or_true, Bool.true_or, Shape.exec_fst]

end Steps

namespace Shape

def small : Shape → List Byte
  | nullptr | bool | int _ | uint _ => [0]
  | string => packString []
  | bytes => packBytes []
  | array _ => [Header.array.mask]
  | map _ _ => [Header.map.mask]
  | tupleNil => []
  | tupleCons s t => s.small ++ t.small
  | object s => packBytes s.small

def errorAfter : Shape → ErrorCode → ErrorCode
  | tupleCons s t => fun e => t.errorAfter (s.errorAfter e)
  | object _ => fun _ => .none
  | _ => fun e => e

/-- A bound on the bytes of a small value, one that fails or one that clears an error. -/
def size : Shape → ℕ
  | array s => 1 + s.size
  | map k v => 1 + (k.size + v.size)
  | tupleNil => 0
  | tupleCons s t => s.size + t.size
  | object s => 5 + s.size
  | _ => 5

/-- A bound on the bytes needed to fail and to recover from it: for a container, of two
elements. -/
def bulk : Shape → ℕ
  | array s => 1 + 2 * s.size
  | map k v => 1 + 2 * (k.size + v.size)
  | tupleNil => 0
  | tupleCons s t => s.bulk + t.bulk
  | object s => 5 + s.bulk
  | _ => 5

theorem size_le_bulk (s : Shape) : s.size ≤ s.bulk := by
  induction s with
  | array s | map k v =>
    simp only [size, bulk]
    omega
  | tupleCons s t ihs iht => exact Nat.add_le_add ihs iht
  | object s ih => exact Nat.add_le_add_left ih 5
  | _ => exact le_rfl

theorem errorAfter_none (s : Shape) : s.errorAfter .none = .none := by
  induction s with
  | tupleCons s t ihs iht => exact (congrArg t.errorAfter ihs).trans iht
  | _ => rfl

end Shape

theorem length_packBytes_le (bs : List Byte) : (packBytes bs).length ≤ 5 + bs.length := by
  rw [packBytes]
  split
  · simp only [List.length_cons]
    omega
  split
  · simp only [List.length_cons, List.length_append, length_bigEndian]
    omega
  split
  · simp only [List.length_cons, List.length_append, length_bigEndian]
    omega
  · exact Nat.zero_le _

section Inputs

variable {s t : Shape} {rest : List Byte} {x : ErrorCode × Bool}

theorem length_small_le (s : Shape) : s.small.length ≤ s.size := by
  induction s with
  | array s => simp [Shape.small, Shape.size]
  | map k v => simp [Shape.small, Shape.size]
  | tupleCons s t ihs iht =>
    rw [Shape.small, Shape.size, List.length_append]
    omega
  | object s ih =>
    have h := length_packBytes_le s.small
    rw [Shape.small, Shape.size]
    omega
  | _ => simp [Shape.small, Shape.size, packBytes, packString]

theorem takes_small (hs : s.size < 2 ^ 32 - 1) (rest : List Byte) (x : ErrorCode × Bool) :
    Takes s s.small rest x (s.errorAfter x.1, x.2) := by
  induction s generalizing rest x with
  | nullptr => exact takes_read (Reads.increment ()) rfl rfl
  | bool => exact takes_read Reads.dataIncrement rfl rfl
  | int w =>
    exact takes_read (Reads.unpackInt w 0) rfl
      (unpackInt_raw (b := 0) (by cases w <;> decide) 0)
  | uint w =>
    exact takes_read (Reads.unpackUint w 0) rfl (unpackUint_raw (b := 0) (by cases w <;> decide))
  | string => exact takes_read (Reads.unpackString []) rfl (unpackString_packString (by decide) [])
  | bytes => exact takes_read (Reads.unpackBytes []) rfl (unpackBytes_packBytes (by decide) [])
  | array s => exact contains_array 0 (by decide) rest x.1 x.2
  | map k v => exact contains_map 0 (by decide) rest x.1 x.2
  | tupleNil => rfl
  | tupleCons s t ihs iht =>
    rw [Shape.size] at hs
    exact takes_tupleCons (ihs (by omega) _ x) (iht (by omega) rest _)
  | object s ih =>
    rw [Shape.size] at hs
    have hlen := length_small_le s
    have h : Takes (.object s) (packBytes s.small) rest x (s.errorAfter .none, x.2 || false) :=
      takes_object (by omega) (ih (by omega) [] (.none, false))
    rwa [Shape.errorAfter_none, Bool.or_false] at h

theorem takes_small_none (hs : s.size < 2 ^ 32 - 1) (rest : List Byte) (b : Bool) :
    Takes s s.small rest (.none, b) (.none, b) := by
  have h := takes_small hs rest (.none, b)
  rwa [Shape.errorAfter_none] at h

theorem length_append_le {bs cs : List Byte} (hbs : bs.length ≤ s.size)
    (hcs : cs.length ≤ t.size) : (bs ++ cs).length ≤ (Shape.tupleCons s t).size := by
  rw [List.length_append]
  exact Nat.add_le_add hbs hcs

/-- Some input makes a read fail and leaves the rest in front of the cursor. -/
def Fails (s : Shape) : Prop :=
  ∃ bs, bs.length ≤ s.size ∧ ∀ rest, s.size + rest.length < 2 ^ 32 - 1 →
    ∀ x, ∃ e, Takes s bs rest x (e, true)

def Clears (s : Shape) : Prop :=
  ∃ bs, bs.length ≤ s.size ∧ ∀ rest x, Takes s bs rest x (.none, x.2)

/-- Some input makes a read fail and is unpacked without an error at the end. -/
def Forgets (s : Shape) : Prop :=
  ∃ bs, bs.length ≤ s.bulk ∧ ∀ rest, s.bulk + rest.length < 2 ^ 32 - 1 →
    Takes s bs rest (.none, false) (.none, true)

theorem fails_tupleCons (hst : (Shape.tupleCons s t).size < 2 ^ 32 - 1) (h : Fails s ∨ Fails t) :
    Fails (.tupleCons s t) := by
  have ht := length_small_le t
  rw [Shape.size] at hst
  rcases h with ⟨bs, hlen, h⟩ | ⟨bs, hlen, h⟩
  · refine ⟨bs ++ t.small, length_append_le hlen ht, fun rest hrest x => ?_⟩
    rw [Shape.size] at hrest
    obtain ⟨e, he⟩ := h (t.small ++ rest) (by rw [List.length_append]; omega) x
    exact ⟨_, takes_tupleCons he (takes_small (by omega) rest (e, true))⟩
  · refine ⟨s.small ++ bs, length_append_le (length_small_le s) hlen, fun rest hrest x => ?_⟩
    rw [Shape.size] at hrest
    obtain ⟨e, he⟩ := h rest (by omega) (s.errorAfter x.1, x.2)
    exact ⟨e, takes_tupleCons (takes_small (by omega) _ x) he⟩

theorem clears_tupleCons (hst : (Shape.tupleCons s t).size < 2 ^ 32 - 1)
    (h : Clears s ∨ Clears t) : Clears (.tupleCons s t) := by
  rw [Shape.size] at hst
  rcases h with ⟨bs, hlen, h⟩ | ⟨bs, hlen, h⟩
  · exact ⟨bs ++ t.small, length_append_le hlen (length_small_le t), fun rest x =>
      takes_tupleCons (h _ x) (takes_small_none (by omega) rest x.2)⟩
  · exact ⟨s.small ++ bs, length_append_le (length_small_le s) hlen, fun rest x =>
      takes_tupleCons (takes_small (by omega) _ x) (h rest _)⟩

section Container

variable {c : Shape} {mask : Byte}

theorem fails_container (hc : Contains c s mask) (hsize : c.size = 1 + s.size)
    (h : Fails s) : Fails c := by
  obtain ⟨bs, hlen, h⟩ := h
  refine ⟨(1 ||| mask) :: bs, by rw [List.length_cons]; omega, fun rest hrest x => ?_⟩
  obtain ⟨e, he⟩ := h rest (by omega) x
  exact ⟨e, takes_container hc he⟩

theorem clears_container (hc : Contains c s mask) (hsize : c.size = 1 + s.size)
    (h : Clears s) : Clears c := by
  obtain ⟨bs, hlen, h⟩ := h
  exact ⟨(1 ||| mask) :: bs, by rw [List.length_cons]; omega,
    fun rest x => takes_container hc (h rest x)⟩

/-- Of two elements the first fails and the second clears the error. -/
theorem forgets_container (hc : Contains c s mask) (hbulk : c.bulk = 1 + 2 * s.size)
    (hfail : Fails s) (hclear : Clears s) : Forgets c := by
  obtain ⟨bs, hbs, hfail⟩ := hfail
  obtain ⟨cs, hcs, hclear⟩ := hclear
  refine ⟨(2 ||| mask) :: (bs ++ cs), ?_, fun rest hrest => ?_⟩
  · rw [List.length_cons, List.length_append]
    omega
  · obtain ⟨e, he⟩ := hfail (cs ++ rest) (by rw [List.length_append]; omega) (.none, false)
    exact takes_container_two hc he (hclear rest (e, true))

end Container

theorem fails_of_soft (hb : s.size < 2 ^ 32 - 1) (hs : s.soft = true) : Fails s := by
  induction s with
  | string =>
    refine ⟨excess .str32, by decide, fun rest hrest x => ⟨.outOfRange, ?_⟩⟩
    have hread := unpackString_excess (show rest.length < 2 ^ 32 - 1 by omega)
    have hstep := (step_eq (Reads.unpackString []) true hread x.1 x.2).2
    rwa [Bool.or_true] at hstep
  | bytes =>
    refine ⟨excess .bin32, by decide, fun rest hrest x => ⟨.outOfRange, ?_⟩⟩
    have hread := unpackBytes_excess (show rest.length < 2 ^ 32 - 1 by omega)
    have hstep := (step_eq (Reads.unpackBytes []) true hread x.1 x.2).2
    rwa [Bool.or_true] at hstep
  | array s ih =>
    rw [Shape.size] at hb
    exact fails_container contains_array rfl (ih (by omega) hs)
  | map k v ihk ihv =>
    rw [Shape.size] at hb
    refine fails_container contains_map rfl (fails_tupleCons (by rw [Shape.size]; omega) ?_)
    exact (Bool.or_eq_true_iff.mp hs).imp (ihk (by omega)) (ihv (by omega))
  | tupleCons s t ihs iht =>
    have hb' := hb
    rw [Shape.size] at hb'
    exact fails_tupleCons hb ((Bool.or_eq_true_iff.mp hs).imp (ihs (by omega)) (iht (by omega)))
  | object s =>
    refine ⟨excess .bin32, ?_, fun rest hrest x => ⟨_, takes_object_excess ?_⟩⟩
    · rw [Shape.size]
      exact Nat.le_add_right 5 s.size
    · omega
  | _ => simp [Shape.soft] at hs

theorem clears_of_object (hb : s.size < 2 ^ 32 - 1) (hs : s.objectFree = false) : Clears s := by
  induction s with
  | array s ih =>
    rw [Shape.size] at hb
    exact clears_container contains_array rfl (ih (by omega) hs)
  | map k v ihk ihv =>
    rw [Shape.size] at hb
    refine clears_container contains_map rfl (clears_tupleCons (by rw [Shape.size]; omega) ?_)
    exact (Bool.and_eq_false_iff.mp hs).imp (ihk (by omega)) (ihv (by omega))
  | tupleCons s t ihs iht =>
    have hb' := hb
    rw [Shape.size] at hb'
    exact clears_tupleCons hb ((Bool.and_eq_false_iff.mp hs).imp (ihs (by omega)) (iht (by omega)))
  | object s => exact ⟨_, length_small_le s.object, takes_small hb⟩
  | _ => simp [Shape.objectFree] at hs

theorem run_of_not_reads (hs : s.reads = false) (u : Unpacker) : s.run u = u := by
  induction s generalizing u with
  | tupleNil => rfl
  | tupleCons s t ihs iht =>
    obtain ⟨hs, ht⟩ := Bool.or_eq_false_iff.mp hs
    exact (iht ht _).trans (ihs hs u)
  | _ => simp [Shape.reads] at hs

theorem soft_of_object (hs : s.objectFree = false) : s.soft = true := by
  by_contra h
  rw [objectFree_of_not_soft (Bool.not_eq_true _ ▸ h)] at hs
  exact Bool.noConfusion hs

theorem forgets_of_not_good (hb : s.bulk < 2 ^ 32 - 1) (hs : s.good = false) : Forgets s := by
  induction s with
  | array s =>
    rw [Shape.bulk] at hb
    have hlt : s.size < 2 ^ 32 - 1 := by omega
    exact forgets_container contains_array rfl (fails_of_soft hlt (soft_of_object hs))
      (clears_of_object hlt hs)
  | map k v =>
    have hlt : (Shape.tupleCons k v).size < 2 ^ 32 - 1 := by
      simp only [Shape.bulk, Shape.size] at hb ⊢
      omega
    exact forgets_container contains_map rfl (fails_of_soft hlt (soft_of_object hs))
      (clears_of_object hlt hs)
  | tupleCons s t ihs iht =>
    have hsize := s.size_le_bulk
    have htsize := t.size_le_bulk
    have hsmall := length_small_le s
    have htsmall := length_small_le t
    simp only [Forgets, Shape.bulk] at hb ihs iht ⊢
    simp only [Shape.good, Bool.and_eq_false_iff, Bool.or_eq_false_iff, Bool.not_eq_false'] at hs
    rcases hs with (hs | hs) | ⟨hsoft, hobj⟩
    · obtain ⟨bs, hlen, h⟩ := ihs (by omega) hs
      refine ⟨bs ++ t.small, by rw [List.length_append]; omega, fun rest hrest => ?_⟩
      exact takes_tupleCons (h _ (by rw [List.length_append]; omega))
        (takes_small_none (by omega) rest true)
    · obtain ⟨bs, hlen, h⟩ := iht (by omega) hs
      refine ⟨s.small ++ bs, by rw [List.length_append]; omega, fun rest hrest => ?_⟩
      exact takes_tupleCons (takes_small_none (by omega) _ false) (h rest (by omega))
    -- A check fails in the head, and an object behind it clears the error.
    · obtain ⟨bs, hbs, hfail⟩ := fails_of_soft (by omega) hsoft
      obtain ⟨cs, hcs, hclear⟩ := clears_of_object (by omega) hobj
      refine ⟨bs ++ cs, by rw [List.length_append]; omega, fun rest hrest => ?_⟩
      obtain ⟨e, he⟩ := hfail (cs ++ rest) (by rw [List.length_append]; omega) (.none, false)
      exact takes_tupleCons he (hclear rest (e, true))
  | object s ih =>
    rw [Shape.bulk] at hb
    rcases Bool.and_eq_false_iff.mp hs with hs | hs
    · obtain ⟨bs, hlen, h⟩ := ih (by omega) hs
      have hpack := length_packBytes_le bs
      refine ⟨packBytes bs, by rw [Shape.bulk]; omega, fun rest _ => ?_⟩
      exact takes_object (by omega) (h [] (by rw [List.length_nil]; omega))
    -- The byte vector fails, and there is no field that would notice.
    · refine ⟨excess .bin32, ?_, fun rest hrest => ?_⟩
      · rw [Shape.bulk]
        exact Nat.le_add_right 5 s.bulk
      · have h : Takes s.object (excess .bin32) rest (.none, false) _ :=
          takes_object_excess (by omega)
        rwa [run_of_not_reads hs] at h
  | _ => simp [Shape.good] at hs

end Inputs

/-- Whenever a read fails, the error reported at the end is `OutOfRange`. -/
def ErrorsStay {α : Type} (s : Shape) (c : Codec α) : Prop :=
  ∀ bytes y u, c.unpack c.init (of bytes) = some (y, u) → s.readFails bytes = true →
    u.error = .outOfRange

/-- The error of a failed read is reported for every input when the shape is good, and
only then unless the smallest inputs are as large as a byte vector can be. -/
theorem errors_stay_iff {α : Type} {s : Shape} {c : Codec α} {P : α → Prop}
    (h : Describes s c P) :
    (s.good = true → ErrorsStay s c) ∧
      (s.bulk < 2 ^ 32 - 1 → ErrorsStay s c → s.good = true) := by
  refine ⟨fun hgood bytes y u hu hfail => ?_, fun hb hstay => ?_⟩
  · obtain ⟨y', hy'⟩ := unpack_run h c.init (of bytes)
    obtain ⟨rfl, rfl⟩ := Prod.mk.inj (Option.some.inj (hu.symm.trans hy'))
    exact (good_spec hgood).1 (of bytes) (Or.inl rfl) hfail
  · by_contra hgood
    obtain ⟨bs, -, hbs⟩ := forgets_of_not_good hb (Bool.not_eq_true _ ▸ hgood)
    have hexec := hbs [] (by simpa using hb)
    rw [Takes, List.append_nil] at hexec
    obtain ⟨y, hy⟩ := unpack_run h c.init (of bs)
    have herror := hstay bs y _ hy (congrArg Prod.snd hexec)
    have hnone : (s.run (of bs)).error = .none := by
      rw [← Shape.exec_fst s (of bs, false)]
      exact congrArg (fun d => d.1.error) hexec
    rw [hnone] at herror
    exact ErrorCode.noConfusion herror

/-- A number and an object with a truth value, and the same behind a string. -/
theorem errors_stay_iff_fields :
    ErrorsStay
        (.tupleCons (.int .w32) (.tupleCons (.object (.tupleCons .bool .tupleNil)) .tupleNil))
        ((Codec.int .w32).tupleCons ((Codec.bool.tupleCons .tupleNil).object.tupleCons .tupleNil)) ∧
      ¬ ErrorsStay
        (.tupleCons .string (.tupleCons (.object (.tupleCons .bool .tupleNil)) .tupleNil))
        (Codec.string.tupleCons ((Codec.bool.tupleCons .tupleNil).object.tupleCons .tupleNil)) := by
  have hobject := Describes.object (.tupleCons .bool .tupleNil)
  constructor
  · exact (errors_stay_iff (.tupleCons (.int .w32) (.tupleCons hobject .tupleNil))).1 rfl
  · intro h
    have hgood := (errors_stay_iff (.tupleCons .string (.tupleCons hobject .tupleNil))).2
      (by decide) h
    exact absurd hgood (by decide)

/-- The string announces 31 characters where three are left. The object behind it is
unpacked, and no error is reported. -/
theorem object_clears_error :
    Shape.readFails
        (.tupleCons .string (.tupleCons (.object (.tupleCons .bool .tupleNil)) .tupleNil))
        [0xbf, 13, 1, 11] = true ∧
      (Codec.string.tupleCons ((Codec.bool.tupleCons .tupleNil).object.tupleCons .tupleNil)).unpack
        ([], ⟨(false, ())⟩, ()) (of [0xbf, 13, 1, 11]) =
        some (([], ⟨(true, ())⟩, ()), of []) :=
  ⟨by decide, rfl⟩

end Plain.Rpc
