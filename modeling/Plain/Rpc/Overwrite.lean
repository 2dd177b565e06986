import Plain.Rpc.Tracking

/-! # What unpacking leaves of the old value

The decoders of a destination type are run over whatever the variable holds. Some assign
it; the wide unsigned ones add to it, and containers keep what they hold. Which of them a
decoder does depends on the type and on the bytes in front of it.
-/

namespace Plain.Rpc

open Unpacker

inductive Destination : Type → Type 1
  | nullptr : Destination Unit
  | bool : Destination Bool
  | int (w : Width) : Destination (BitVec w.bits)
  | uint (w : Width) : Destination (BitVec w.bits)
  | string : Destination (List Byte)
  | bytes : Destination (List Byte)
  | array {α : Type} (elem : Destination α) : Destination (List α)
  | map {κ β : Type} [DecidableEq κ] (it : Codec.Iteration κ β) (key : Destination κ)
      (value : Destination β) : Destination (Finmap fun _ : κ => β)
  | tupleNil : Destination Unit
  | tupleCons {α β : Type} (head : Destination α) (others : Destination β) :
      Destination (α × β)

/-- The tags behind which an unsigned decoder adds to the variable. -/
def Width.wideTags : Width → List Tag
  | .w8 => []
  | .w16 => [.uint16]
  | .w32 => [.uint32, .uint16]
  | .w64 => [.uint64, .uint32, .uint16]

namespace Destination

def codec : {α : Type} → Destination α → Codec α
  | _, nullptr => .nullptr
  | _, bool => .bool
  | _, int w => .int w
  | _, uint w => .uint w
  | _, string => .string
  | _, bytes => .bytes
  | _, array elem => elem.codec.array
  | _, map it key value => .map it key.codec value.codec
  | _, tupleNil => .tupleNil
  | _, tupleCons head others => head.codec.tupleCons others.codec

def shape : {α : Type} → Destination α → Shape
  | _, nullptr => .nullptr
  | _, bool => .bool
  | _, int w => .int w
  | _, uint w => .uint w
  | _, string => .string
  | _, bytes => .bytes
  | _, array elem => .array elem.shape
  | _, map _ key value => .map key.shape value.shape
  | _, tupleNil => .tupleNil
  | _, tupleCons head others => .tupleCons head.shape others.shape

/-- The bytes in front of the decoder replace the old value: no container keeps its elements,
no integer is added to, and every key a map could hold is read. -/
def Overwrites : {α : Type} → Destination α → Unpacker → Prop
  | _, uint w, u => u.data.1 ∉ w.wideTags.map Tag.toByte
  | _, array _, _ => False
  | _, map (κ := κ) _ key value, u =>
      ∀ k : κ, k ∈ (elements (Codec.unpackEntry key.codec value.codec)
        (unpackSize .map u).1.toNat (unpackSize .map u).2).map Sigma.fst
  | _, tupleCons head others, u => head.Overwrites u ∧ others.Overwrites (head.shape.run u)
  | _, _, _ => True

variable {α : Type}

theorem describes (d : Destination α) : ∃ P, Describes d.shape d.codec P := by
  induction d with
  | nullptr => exact ⟨_, .nullptr⟩
  | bool => exact ⟨_, .bool⟩
  | int w => exact ⟨_, .int w⟩
  | uint w => exact ⟨_, .uint w⟩
  | string => exact ⟨_, .string⟩
  | bytes => exact ⟨_, .bytes⟩
  | array _ ih =>
    obtain ⟨P, hP⟩ := ih
    exact ⟨_, .array hP⟩
  | map it _ _ ihk ihv =>
    obtain ⟨R, hR⟩ := ihk
    obtain ⟨Q, hQ⟩ := ihv
    exact ⟨_, .map it hR hQ⟩
  | tupleNil => exact ⟨_, .tupleNil⟩
  | tupleCons _ _ ih ihs =>
    obtain ⟨P, hP⟩ := ih
    obtain ⟨Q, hQ⟩ := ihs
    exact ⟨_, .tupleCons hP hQ⟩

theorem objectFree (d : Destination α) : d.shape.objectFree = true := by
  induction d with
  | array _ ih => exact ih
  | map _ _ _ ihk ihv => exact Bool.and_eq_true_iff.mpr ⟨ihk, ihv⟩
  | tupleCons _ _ ih ihs => exact Bool.and_eq_true_iff.mpr ⟨ih, ihs⟩
  | _ => rfl

theorem unpack_run (d : Destination α) (x : α) (u : Unpacker) :
    ∃ y, d.codec.unpack x u = some (y, d.shape.run u) := by
  obtain ⟨P, hP⟩ := d.describes
  exact Rpc.unpack_run hP x u

end Destination

section Primitive

variable {w : Width} {u : Unpacker}

theorem accumulate_fst {n : ℕ} (k : ℕ) (x : BitVec n) (u : Unpacker) :
    (accumulate k x u).1 = x + (accumulate k 0 u).1 := by
  induction k generalizing x u with
  | zero => simp [accumulate]
  | succ k ih =>
    simp only [accumulate]
    rw [ih, ih (0 + _), BitVec.add_assoc]
    simp

theorem unpackUint_wide (h : u.data.1 ∈ w.wideTags.map Tag.toByte) (x : BitVec w.bits) :
    (unpackUint w x u).1 = x + (unpackUint w 0 u).1 := by
  cases w with
  | w8 => cases h
  | w16 =>
    simp only [Width.wideTags, List.map_cons, List.map_nil, List.mem_singleton] at h
    simp only [unpackUint, unpackUint16, h, if_true]
    exact accumulate_fst 2 x _
  | w32 =>
    simp only [Width.wideTags, List.map_cons, List.map_nil, List.mem_cons, List.not_mem_nil,
      or_false] at h
    simp only [unpackUint, unpackUint32]
    split
    · exact accumulate_fst 4 x _
    · next h32 =>
      rw [if_pos (h.resolve_left h32), if_pos (h.resolve_left h32)]
      exact accumulate_fst 2 x _
  | w64 =>
    simp only [Width.wideTags, List.map_cons, List.map_nil, List.mem_cons, List.not_mem_nil,
      or_false] at h
    simp only [unpackUint, unpackUint64]
    split
    · exact accumulate_fst 8 x _
    split
    · exact accumulate_fst 4 x _
    · next h64 h32 =>
      have h16 := (h.resolve_left h64).resolve_left h32
      rw [if_pos h16, if_pos h16]
      exact accumulate_fst 2 x _

theorem unpackUint_narrow (h : u.data.1 ∉ w.wideTags.map Tag.toByte) (x y : BitVec w.bits) :
    unpackUint w x u = unpackUint w y u := by
  cases w with
  | w8 => rfl
  | w16 =>
    simp only [Width.wideTags, List.map_cons, List.map_nil, List.mem_singleton] at h
    simp only [unpackUint, unpackUint16, if_neg h]
    rfl
  | w32 =>
    simp only [Width.wideTags, List.map_cons, List.map_nil, List.mem_cons, List.not_mem_nil,
      or_false, not_or] at h
    simp only [unpackUint, unpackUint32, if_neg h.1, if_neg h.2]
    rfl
  | w64 =>
    simp only [Width.wideTags, List.map_cons, List.map_nil, List.mem_cons, List.not_mem_nil,
      or_false, not_or] at h
    simp only [unpackUint, unpackUint64, if_neg h.1, if_neg h.2.1, if_neg h.2.2]
    rfl

theorem unpackUint_overwrites_iff :
    (∀ x y, unpackUint w x u = unpackUint w y u) ↔ u.data.1 ∉ w.wideTags.map Tag.toByte := by
  constructor
  · intro hsame hwide
    have hadd := congrArg Prod.fst (hsame 0 1)
    rw [unpackUint_wide hwide 1] at hadd
    have hone : (1 : BitVec w.bits) = 0 := by simpa using hadd
    revert hone
    cases w <;> decide
  · exact fun h x y => unpackUint_narrow h x y

theorem takeBytes_overwrites {size : ℕ} (h : (takeBytes size [] u).2.error = .none)
    (x y : List Byte) : takeBytes size x u = takeBytes size y u := by
  unfold takeBytes at h ⊢
  split
  · rfl
  · next hc =>
    rw [if_neg hc] at h
    cases h

end Primitive

section Map

variable {κ β : Type} [DecidableEq κ]

theorem insertAll_cons (e : (_ : κ) × β) (l : List ((_ : κ) × β)) (m : Finmap fun _ : κ => β) :
    insertAll (e :: l) m = insertAll l (m.insert e.1 e.2) := rfl

theorem lookup_insertAll (l : List ((_ : κ) × β)) (m : Finmap fun _ : κ => β) (k : κ) :
    (insertAll l m).lookup k =
      if k ∈ l.map Sigma.fst then (insertAll l ∅).lookup k else m.lookup k := by
  induction l generalizing m with
  | nil => rfl
  | cons e l ih =>
    rw [insertAll_cons, insertAll_cons, ih, ih (Finmap.insert e.1 e.2 ∅)]
    by_cases hl : k ∈ l.map Sigma.fst
    · simp only [List.map_cons, List.mem_cons, hl, or_true, if_true]
    · by_cases hk : k = e.1
      · subst hk
        simp [hl, Finmap.lookup_insert]
      · simp [hl, hk, Finmap.lookup_insert_of_ne]

theorem insertAll_overwrites_iff (value : β) (l : List ((_ : κ) × β)) :
    (∀ m m' : Finmap fun _ : κ => β, insertAll l m = insertAll l m') ↔
      ∀ k, k ∈ l.map Sigma.fst := by
  constructor
  · intro hsame k
    by_contra hk
    have hlookup := congrArg (Finmap.lookup k) (hsame ∅ (Finmap.singleton k value))
    rw [lookup_insertAll, if_neg hk, lookup_insertAll, if_neg hk] at hlookup
    simp at hlookup
  · intro hall m m'
    apply Finmap.ext_lookup
    intro k
    rw [lookup_insertAll, if_pos (hall k), lookup_insertAll l m', if_pos (hall k)]

end Map

theorem Reads.error_none {β : Type} {f : Unpacker → β × Unpacker} (hf : Reads False False f)
    {u : Unpacker} (hu : u.overrun = 0 ∨ u.rest = []) (he : (f u).2.error = .none) :
    u.error = .none := by
  obtain ⟨r, o, e⟩ := u
  obtain ⟨v, r', o', failed, h⟩ := hf r o hu
  rw [h.eq] at he
  cases failed with
  | true => cases he
  | false => exact he

theorem run_error_none {s : Shape} (hobj : s.objectFree = true) {u : Unpacker}
    (hu : u.overrun = 0 ∨ u.rest = []) (he : (s.run u).error = .none) : u.error = .none :=
  (reads_run hobj False.elim False.elim).error_none hu he

namespace Destination

variable {α : Type}

theorem array_keeps (elem : Destination α) (u : Unpacker) :
    ¬ ∀ x y, elem.array.codec.unpack x u = elem.array.codec.unpack y u := by
  intro hsame
  have heq := hsame [] [elem.codec.init]
  change elem.codec.unpackArray _ u = elem.codec.unpackArray _ u at heq
  rw [unpackArray_elements elem.unpack_run, unpackArray_elements elem.unpack_run] at heq
  have hlen := congrArg (Option.map fun r => r.1.length) heq
  simp at hlen

theorem map_overwrites_iff {κ β : Type} [DecidableEq κ] (it : Codec.Iteration κ β)
    (key : Destination κ) (value : Destination β) (u : Unpacker) :
    (∀ m m', (map it key value).codec.unpack m u = (map it key value).codec.unpack m' u) ↔
      (map it key value).Overwrites u := by
  have hmap := unpackMap_elements key.unpack_run value.unpack_run
  apply Iff.trans _ (insertAll_overwrites_iff value.codec.init _)
  constructor
  · intro hsame m m'
    have heq := ((hmap m u).symm.trans (hsame m m')).trans (hmap m' u)
    exact congrArg Prod.fst (Option.some.inj heq)
  · intro hsame m m'
    apply (hmap m u).trans
    rw [hsame m m']
    exact (hmap m' u).symm

theorem tupleCons_overwrites_iff {β : Type} (head : Destination α) (others : Destination β)
    (u : Unpacker) :
    (∀ x y, (head.tupleCons others).codec.unpack x u =
        (head.tupleCons others).codec.unpack y u) ↔
      (∀ x y, head.codec.unpack x u = head.codec.unpack y u) ∧
        ∀ x y, others.codec.unpack x (head.shape.run u) =
          others.codec.unpack y (head.shape.run u) := by
  have hunpack (x) : (head.tupleCons others).codec.unpack x u =
      (head.codec.unpack x.1 u).bind fun r =>
        (others.codec.unpack x.2 r.2).bind fun r' => some ((r.1, r'.1), r'.2) := rfl
  constructor
  · intro hsame
    constructor
    · intro x y
      obtain ⟨x', hx⟩ := head.unpack_run x u
      obtain ⟨y', hy⟩ := head.unpack_run y u
      obtain ⟨z, hz⟩ := others.unpack_run others.codec.init (head.shape.run u)
      have heq := hsame (x, others.codec.init) (y, others.codec.init)
      rw [hunpack, hunpack, hx, hy] at heq
      simp only [Option.bind_some, hz, Option.some.injEq, Prod.mk.injEq, and_true] at heq
      rw [hx, hy, heq]
    · intro x y
      obtain ⟨z, hz⟩ := head.unpack_run head.codec.init u
      obtain ⟨x', hx⟩ := others.unpack_run x (head.shape.run u)
      obtain ⟨y', hy⟩ := others.unpack_run y (head.shape.run u)
      have heq := hsame (head.codec.init, x) (head.codec.init, y)
      rw [hunpack, hunpack, hz] at heq
      simp only [Option.bind_some, hx, hy, Option.some.injEq, Prod.mk.injEq, true_and,
        and_true] at heq
      rw [hx, hy, heq]
  · rintro ⟨hhead, hothers⟩ x y
    obtain ⟨z, hz⟩ := head.unpack_run y.1 u
    rw [hunpack, hunpack, hhead x.1 y.1, hz]
    simp only [Option.bind_some, hothers x.2 y.2]

/-- Unpacking without an error leaves the same over every old value exactly when the bytes
replace the old value. -/
theorem overwrites_iff (d : Destination α) {u : Unpacker} (hu : u.overrun = 0 ∨ u.rest = [])
    (he : (d.shape.run u).error = .none) :
    (∀ x y, d.codec.unpack x u = d.codec.unpack y u) ↔ d.Overwrites u := by
  induction d generalizing u with
  | nullptr => exact ⟨fun _ => trivial, fun _ _ _ => rfl⟩
  | bool => exact ⟨fun _ => trivial, fun _ _ _ => rfl⟩
  | int w =>
    refine ⟨fun _ => trivial, fun _ x y => ?_⟩
    cases w <;> rfl
  | uint w =>
    apply Iff.trans _ unpackUint_overwrites_iff
    exact ⟨fun h x y => Option.some.inj (h x y), fun h x y => congrArg some (h x y)⟩
  | string =>
    exact ⟨fun _ => trivial, fun _ x y => congrArg some (takeBytes_overwrites he x y)⟩
  | bytes =>
    exact ⟨fun _ => trivial, fun _ x y => congrArg some (takeBytes_overwrites he x y)⟩
  | array elem => exact ⟨fun hsame => elem.array_keeps u hsame, False.elim⟩
  | map it key value => exact map_overwrites_iff it key value u
  | tupleNil => exact ⟨fun _ => trivial, fun _ _ _ => rfl⟩
  | @tupleCons _ _ head others ih ihs =>
    -- an error of the first field would still be there after the others
    have hvalid := run_valid head.shape hu
    have hhead := run_error_none others.objectFree hvalid he
    exact (tupleCons_overwrites_iff head others u).trans (and_congr (ih hu hhead) (ihs hvalid he))

/-- Bytes that are unpacked without an error leave the same value over any two old ones
exactly when they replace the old value. -/
theorem unpack_overwrites_iff (d : Destination α) {bytes : List Byte} {x z : α} {u : Unpacker}
    (h : d.codec.unpack x (of bytes) = some (z, u)) (he : u.error = .none) :
    (∀ x y, d.codec.unpack x (of bytes) = d.codec.unpack y (of bytes)) ↔
      d.Overwrites (of bytes) := by
  apply d.overwrites_iff (Or.inl rfl)
  obtain ⟨y, hy⟩ := d.unpack_run x (of bytes)
  have hrun : u = d.shape.run (of bytes) :=
    congrArg Prod.snd (Option.some.inj (h.symm.trans hy))
  rw [← hrun]
  exact he

/-- A number of one byte and a string are left alike over two old pairs. -/
theorem unpack_overwrites_iff_pair :
    (tupleCons (uint .w16) (tupleCons string tupleNil)).codec.unpack (7, [1, 2], ())
        (of [5, 0xa1, 0x61]) =
      (tupleCons (uint .w16) (tupleCons string tupleNil)).codec.unpack (0, [], ())
        (of [5, 0xa1, 0x61]) := by
  have hunpack : (tupleCons (uint .w16) (tupleCons string tupleNil)).codec.unpack (0, [], ())
      (of [5, 0xa1, 0x61]) = some ((5, [0x61], ()), of []) := rfl
  refine (unpack_overwrites_iff _ hunpack rfl).mpr ?_ _ _
  have hnarrow : (5 : Byte) ∉ [Tag.uint16.toByte] := by decide
  exact ⟨hnarrow, trivial, trivial⟩

/-- A wide number is added to the old one, and a vector keeps its old elements. -/
theorem old_value_kept :
    (uint .w16).codec.unpack 1 (of [Tag.uint16.toByte, 1, 0]) = some (257, of []) ∧
      (uint .w16).codec.unpack 0 (of [Tag.uint16.toByte, 1, 0]) = some (256, of []) ∧
      (array (int .w8)).codec.unpack [7] (of [0x91, 100]) = some ([7, 100], of []) ∧
      (array (int .w8)).codec.unpack [] (of [0x91, 100]) = some ([100], of []) :=
  ⟨rfl, rfl, rfl, rfl⟩

end Destination

end Plain.Rpc
