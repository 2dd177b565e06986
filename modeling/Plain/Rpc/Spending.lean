import Plain.Rpc.Overwrite

/-! # Bytes spent and elements stored

Every read moves forward, so the elements of a container that are read without an error
are no more than the bytes they are read from. The loops do not look at the error, though:
they store as many elements as the header says, and all of them are copied to an array of
fixed size.
-/

namespace Plain.Rpc

open Unpacker

/-- A read that leaves `k` bytes less, if there are as many. -/
def Spends {β : Type} (k : ℕ) (f : Unpacker → β × Unpacker) : Prop :=
  ∀ u, u.overrun = 0 ∨ u.rest = [] →
    ((f u).2.overrun = 0 ∨ (f u).2.rest = []) ∧ (f u).2.rest.length ≤ u.rest.length - k

namespace Spends

variable {β γ : Type} {k : ℕ}

theorem pure (v : β) : Spends 0 fun u => (v, u) := fun _ hu => ⟨hu, le_rfl⟩

theorem weaken {f : Unpacker → β × Unpacker} (hf : Spends k f) : Spends 0 f := by
  intro u hu
  obtain ⟨hvalid, hlen⟩ := hf u hu
  exact ⟨hvalid, by omega⟩

theorem bind {f : Unpacker → β × Unpacker} {g : β → Unpacker → γ × Unpacker}
    (hf : Spends k f) (hg : ∀ v, Spends 0 (g v)) : Spends k fun u => g (f u).1 (f u).2 := by
  intro u hu
  obtain ⟨hvalid, hlen⟩ := hf u hu
  obtain ⟨hvalid', hlen'⟩ := hg (f u).1 (f u).2 hvalid
  refine ⟨hvalid', hlen'.trans ?_⟩
  omega

theorem behind {f : Unpacker → β × Unpacker} {g : β → Unpacker → γ × Unpacker}
    (hf : Spends 0 f) (hg : ∀ v, Spends k (g v)) : Spends k fun u => g (f u).1 (f u).2 := by
  intro u hu
  obtain ⟨hvalid, hlen⟩ := hf u hu
  obtain ⟨hvalid', hlen'⟩ := hg (f u).1 (f u).2 hvalid
  refine ⟨hvalid', hlen'.trans ?_⟩
  omega

theorem map {f : Unpacker → β × Unpacker} (hf : Spends k f) (g : β → γ) :
    Spends k fun u => (g (f u).1, (f u).2) :=
  hf.bind (g := fun v u => (g v, u)) fun v => pure (g v)

theorem ite {c : Prop} [Decidable c] {f g : Unpacker → β × Unpacker} (hf : Spends k f)
    (hg : Spends k g) : Spends k fun u => if c then f u else g u := by
  by_cases h : c
  · simpa only [if_pos h] using hf
  · simpa only [if_neg h] using hg

theorem data : Spends 0 Unpacker.data := by
  rintro ⟨r, o, e⟩ hu
  cases r <;> exact ⟨hu, le_rfl⟩

theorem increment (v : β) : Spends 1 fun u => (v, u.increment 1) := by
  rintro ⟨r, o, e⟩ hu
  cases r with
  | nil => simp [Unpacker.increment]
  | cons b bs =>
    obtain rfl : o = 0 := hu.resolve_right (by simp)
    simp

theorem advance (v : β) : Spends 0 fun u => (v, u.advance) := by
  rintro ⟨r, o, e⟩ hu
  cases r with
  | nil => exact ⟨Or.inr rfl, le_rfl⟩
  | cons b bs => exact ⟨hu.imp_right (by simp), Nat.le_succ _⟩

theorem takeBytes (size : ℕ) (value : List Byte) : Spends 0 (Rpc.takeBytes size value) := by
  intro u hu
  unfold Rpc.takeBytes
  split
  · next hc =>
    rw [Unpacker.increment, if_pos hc]
    exact ⟨Or.inl hc.1, by simp⟩
  · exact ⟨hu, le_rfl⟩

theorem next : Spends 1 Unpacker.next :=
  data.behind (g := fun b u => (b, u.increment 1)) increment

theorem skip {f : Unpacker → β × Unpacker} (hf : Spends 0 f) :
    Spends 1 fun u => f (u.increment 1) :=
  (increment ()).bind (g := fun _ u => f u) fun _ => hf

theorem accumulate {w : ℕ} (n : ℕ) (value : BitVec w) :
    Spends 0 (Unpacker.accumulate n value) := by
  induction n generalizing value with
  | zero => exact pure value
  | succ n ih =>
    exact next.weaken.bind
      (g := fun (b : Byte) u => Unpacker.accumulate n (value + b.setWidth w <<< (8 * n)) u)
      fun _ => ih _

theorem collect {w : ℕ} (n : ℕ) (bits : BitVec w) : Spends 0 (Unpacker.collect n bits) := by
  induction n generalizing bits with
  | zero => exact pure bits
  | succ n ih =>
    exact next.weaken.bind
      (g := fun (b : Byte) u => Unpacker.collect n (bits ||| b.setWidth w <<< (8 * n)) u)
      fun _ => ih _

theorem iterate {f : Unpacker → Unpacker} (hf : Spends 0 fun u => ((), f u)) (n : ℕ) :
    Spends 0 fun u => ((), Nat.iterate f n u) := by
  induction n with
  | zero => exact pure ()
  | succ n ih => exact hf.bind (g := fun _ u => ((), Nat.iterate f n u)) fun _ => ih

theorem rules : Rules fun _ f => Spends 1 f where
  map g hf := hf.map g
  ite hf hg := hf.ite hg
  look hg := data.behind hg
  next := next
  increment := increment
  tagged := next.weaken.skip
  accumulate n value := (accumulate n value).skip
  collect n bits := (collect n bits).skip

theorem unpackUint (w : Width) (value : BitVec w.bits) :
    Spends 1 (Rpc.unpackUint w value) := by
  apply rules.unpackUint
  intro _ value
  have h32 : Spends 0 fun u =>
      ((Unpacker.accumulate 4 value u).1, (Unpacker.accumulate 4 value u).2.advance) :=
    (accumulate 4 value).bind (g := fun v u => (v, u.advance)) advance
  exact h32.skip

theorem unpackBytes (value : List Byte) : Spends 1 (Rpc.unpackBytes value) :=
  rules.binSize.bind (g := fun (size : BitVec 64) u => Rpc.takeBytes size.toNat value u)
    fun _ => takeBytes _ value

theorem unpackString (value : List Byte) : Spends 1 (Rpc.unpackString value) :=
  rules.strSize.bind (g := fun (size : BitVec 64) u => Rpc.takeBytes size.toNat value u)
    fun _ => takeBytes _ value

end Spends

section Shapes

variable {s t : Shape}

theorem spends_run (s : Shape) : Spends (if s.reads then 1 else 0) fun u => ((), s.run u) := by
  have hweak {s : Shape} (h : Spends (if s.reads then 1 else 0) fun u => ((), s.run u)) :
      Spends 0 fun u => ((), s.run u) := h.weaken
  induction s with
  | nullptr => exact Spends.increment ()
  | bool => exact Spends.data.behind (g := fun _ u => ((), u.increment 1)) fun _ =>
      Spends.increment ()
  | int w => exact (Spends.rules.unpackInt w 0).map fun _ => ()
  | uint w => exact (Spends.unpackUint w 0).map fun _ => ()
  | string => exact (Spends.unpackString []).map fun _ => ()
  | bytes => exact (Spends.unpackBytes []).map fun _ => ()
  | array s ih =>
    exact (Spends.rules.unpackSize .array).bind
      (g := fun n u => ((), Nat.iterate s.run n.toNat u)) fun n => (hweak ih).iterate n.toNat
  | map k v ihk ihv =>
    have hentry : Spends 0 fun u => ((), v.run (k.run u)) :=
      (hweak ihk).bind (g := fun _ u => ((), v.run u)) fun _ => hweak ihv
    exact (Spends.rules.unpackSize .map).bind
      (g := fun n u => ((), Nat.iterate (fun u => v.run (k.run u)) n.toNat u))
      fun n => hentry.iterate n.toNat
  | tupleNil => exact Spends.pure ()
  | tupleCons s t ihs iht =>
    cases hs : s.reads with
    | true =>
      simp only [hs, if_true] at ihs
      simp only [Shape.reads, hs, Bool.true_or, if_true]
      exact ihs.bind (g := fun _ u => ((), t.run u)) fun _ => hweak iht
    | false =>
      simp only [Shape.reads, hs, Bool.false_or]
      exact (hweak ihs).behind (g := fun _ u => ((), t.run u)) fun _ => iht
  | object s => exact fun u hu => Spends.unpackBytes [] u hu

theorem run_spends (hobj : s.objectFree = true) (hreads : s.reads = true) {u : Unpacker}
    (hu : u.overrun = 0 ∨ u.rest = []) (he : (s.run u).error = .none) :
    (s.run u).rest.length < u.rest.length := by
  have hrest : u.rest ≠ [] := by
    intro hnil
    have hfail := exec_nil s hreads (u, false) hnil
    rw [((objectFree_spec hobj hu).1 hfail).1] at he
    cases he
  have hspends := spends_run s
  rw [hreads, if_pos rfl] at hspends
  have hpos := List.length_pos_iff.mpr hrest
  have hlen : (s.run u).rest.length ≤ u.rest.length - 1 := (hspends u hu).2
  omega

theorem iterate_run_le (hobj : s.objectFree = true) (hreads : s.reads = true) {n : ℕ}
    {u : Unpacker} (hu : u.overrun = 0 ∨ u.rest = [])
    (he : (Nat.iterate s.run n u).error = .none) : n ≤ u.rest.length := by
  induction n generalizing u with
  | zero => exact Nat.zero_le _
  | succ n ih =>
    have hvalid := run_valid s hu
    have hle := ih hvalid he
    have hiterate : Reads False False fun u => ((), Nat.iterate s.run n u) :=
      (reads_run hobj False.elim False.elim).iterate n
    have hlt := run_spends hobj hreads hu (hiterate.error_none hvalid he)
    omega

end Shapes

section Containers

variable {α β κ : Type}

def announced (h : Header) (bytes : List Byte) : ℕ := (unpackSize h (of bytes)).1.toNat

def Codec.arrayElements (c : Codec α) (bytes : List Byte) : List α :=
  elements (c.unpack c.init) (announced .array bytes) (unpackSize .array (of bytes)).2

def Codec.mapEntries (k : Codec κ) (v : Codec β) (bytes : List Byte) : List ((_ : κ) × β) :=
  elements (unpackEntry k v) (announced .map bytes) (unpackSize .map (of bytes)).2

theorem announced_le {s : Shape} (hobj : s.objectFree = true) (hreads : s.reads = true)
    (h : Header) {bytes : List Byte}
    (he : (Nat.iterate s.run (announced h bytes) (unpackSize h (of bytes)).2).error = .none) :
    announced h bytes ≤ bytes.length := by
  obtain ⟨hvalid, hlen⟩ := Spends.rules.unpackSize h (of bytes) (Or.inl rfl)
  have hle := iterate_run_le hobj hreads hvalid he
  exact hle.trans (hlen.trans (Nat.sub_le _ _))

theorem unpackMany_eq_some {ε σ : Type} {unpack : Unpacker → Option (ε × Unpacker)}
    {store : σ → ε → σ} {n : ℕ} {init stored : σ} {u u' : Unpacker}
    (h : unpackMany unpack store n init u = some (stored, u')) :
    (elements unpack n u).length = n ∧ stored = (elements unpack n u).foldl store init := by
  induction n generalizing init u with
  | zero =>
    cases h
    exact ⟨rfl, rfl⟩
  | succ n ih =>
    obtain ⟨⟨val, v⟩, hval, hrest⟩ := Option.bind_eq_some_iff.mp h
    obtain ⟨hlen, hstored⟩ := ih hrest
    simp only [elements, hval]
    exact ⟨by rw [List.length_cons, hlen], hstored⟩

theorem unpackArray_eq_some {c : Codec α} {bytes : List Byte} {array array' : List α}
    {u : Unpacker} (h : c.unpackArray array (of bytes) = some (array', u)) :
    array' = array ++ c.arrayElements bytes ∧
      (c.arrayElements bytes).length = announced .array bytes := by
  obtain ⟨hlen, hstored⟩ := unpackMany_eq_some h
  rw [foldl_append_singleton] at hstored
  exact ⟨hstored, hlen⟩

theorem unpackMap_eq_some [DecidableEq κ] {k : Codec κ} {v : Codec β} {bytes : List Byte}
    {map map' : Finmap fun _ : κ => β} {u : Unpacker}
    (h : Codec.unpackMap k v map (of bytes) = some (map', u)) :
    map' = insertAll (k.mapEntries v bytes) map ∧
      (k.mapEntries v bytes).length = announced .map bytes := by
  obtain ⟨hlen, hstored⟩ := unpackMany_eq_some h
  exact ⟨hstored, hlen⟩

/-- What a container is left with is what it had and the elements read, and these are no more
than the bytes of the input exactly when the header announces no more. So it is if elements of
at least one byte, without user objects, are read without an error. -/
theorem elements_bounded_iff [DecidableEq κ] (c : Codec α) (k : Codec κ) (v : Codec β)
    (array : List α) (map : Finmap fun _ : κ => β) (bytes : List Byte) :
    (∀ array' u, c.unpackArray array (of bytes) = some (array', u) →
      array' = array ++ c.arrayElements bytes ∧
      ((c.arrayElements bytes).length ≤ bytes.length ↔
        announced .array bytes ≤ bytes.length)) ∧
    (∀ map' u, Codec.unpackMap k v map (of bytes) = some (map', u) →
      map' = insertAll (k.mapEntries v bytes) map ∧
      ((k.mapEntries v bytes).length ≤ bytes.length ↔ announced .map bytes ≤ bytes.length)) ∧
    (∀ s P, Describes s c P → ∃ array' u,
      c.unpackArray array (of bytes) = some (array', u) ∧
      (s.reads = true → s.objectFree = true → u.error = .none →
        announced .array bytes ≤ bytes.length)) ∧
    ∀ t R t' Q, Describes t k R → Describes t' v Q → ∃ map' u,
      Codec.unpackMap k v map (of bytes) = some (map', u) ∧
      ((Shape.tupleCons t t').reads = true → (Shape.tupleCons t t').objectFree = true →
        u.error = .none → announced .map bytes ≤ bytes.length) := by
  refine ⟨?_, ?_, ?_, ?_⟩
  · intro array' u h
    obtain ⟨harray, hlen⟩ := unpackArray_eq_some h
    exact ⟨harray, by rw [hlen]⟩
  · intro map' u h
    obtain ⟨hmap, hlen⟩ := unpackMap_eq_some h
    exact ⟨hmap, by rw [hlen]⟩
  · intro s P hc
    exact ⟨_, _, unpackArray_elements (unpack_run hc) array (of bytes),
      fun hreads hobj he => announced_le hobj hreads .array he⟩
  · intro t R t' Q hk hv
    exact ⟨_, _, unpackMap_elements (unpack_run hk) (unpack_run hv) map (of bytes),
      fun hreads hobj he => announced_le hobj hreads .map he⟩

/-- Two bytes announce one element and hold it. -/
theorem elements_bounded_iff_one :
    ((Codec.int .w8).arrayElements [0x91, 100]).length ≤ 2 :=
  have h := elements_bounded_iff (.int .w8) (.int .w8) (.int .w8) [] ∅ [0x91, 100]
  (h.1 [100] (of []) rfl).2.mpr (by decide)

/-- One byte makes fifteen elements. -/
theorem elements_exceed_input :
    (Codec.int .w8).unpackArray [] (of [0x9f]) =
        some (List.replicate 15 0, ⟨[], 0, .outOfRange⟩) ∧
      (Codec.int .w8).arrayElements [0x9f] = List.replicate 15 0 :=
  ⟨rfl, rfl⟩

theorem length_unpackArray {c : Codec α} {bytes : List Byte} {vec : List α} {u : Unpacker}
    (h : c.unpackArray [] (of bytes) = some (vec, u)) : vec.length = announced .array bytes := by
  obtain ⟨rfl, hlen⟩ := unpackArray_eq_some h
  exact hlen

/-- The copy to an array of `n` elements stores only to indices below `n` exactly when the
header announces no more than `n` elements. -/
theorem stdarray_within_iff (c : Codec α) {n : ℕ} (array : Vector α n) (bytes : List Byte) :
    (∀ vec u, c.unpackArray [] (of bytes) = some (vec, u) →
      ((∀ i < vec.length, i < n) ↔ announced .array bytes ≤ n)) ∧
    ((c.unpackStdarray array (of bytes)).isSome ↔
      (c.unpackArray [] (of bytes)).isSome ∧ announced .array bytes ≤ n) := by
  constructor
  · intro vec u h
    rw [length_unpackArray h]
    exact ⟨fun hall => Nat.le_of_not_lt fun hlt => Nat.lt_irrefl n (hall n hlt),
      fun hle i hi => hi.trans_le hle⟩
  · unfold Codec.unpackStdarray
    cases h : c.unpackArray [] (of bytes) with
    | none => simp
    | some r =>
      obtain ⟨vec, u⟩ := r
      rw [← length_unpackArray h, Option.bind_eq_bind, Option.bind_some]
      unfold Codec.copyTo
      dsimp only
      by_cases hle : vec.length ≤ n
      · simp [hle]
      · simp [hle]

/-- Three elements are announced and read for an array of two. -/
theorem stdarray_overrun :
    (Codec.int .w8).unpackArray [] (of [0x93, 100, 101, 102]) = some ([100, 101, 102], of []) ∧
      (Codec.int .w8).unpackStdarray #v[0, 0] (of [0x93, 100, 101, 102]) = none :=
  ⟨rfl, rfl⟩

end Containers

end Plain.Rpc
