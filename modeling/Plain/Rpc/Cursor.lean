import Plain.Foundation.Machine
import Plain.Rpc.Tracking

/-! # Where the cursor of the decoder goes

Every decoder moves the cursor forward, and all moves but one are checked against the end
of the buffer. The decoder of `uint64_t`, which those of `float` and `double` use too,
skips a byte behind a number of 32 bits without a look at the end.
-/

namespace Plain.Rpc

open Unpacker

section Float

/-- The number `mantissa * 2 ^ exponent`, as it is before it is rounded. -/
structure Scaled where
  mantissa : ℤ
  exponent : ℤ
  deriving DecidableEq, Repr

/-- The number that the bits of the wire stand for: `size` bits of the mantissa, then those of
the exponent, and the sign. The exponent is computed without a sign, so one that should be
negative wraps around. -/
def Scaled.ofBits {w : ℕ} (size exponentSize exponentWidth bias : ℕ) (bits : BitVec w) : Scaled :=
  let mantissa : ℤ := ((1 <<< size + (bits.extractLsb' 0 size).toNat : ℕ) : ℤ)
  let exponent := (bits.extractLsb' size exponentSize).setWidth exponentWidth -
    BitVec.ofNat exponentWidth bias
  ⟨if bits.getLsbD (w - 1) then -mantissa else mantissa, exponent.toNat - size⟩

/-- A number that was packed as an integer, signed or not as its tag says. -/
def unpackNumber (b : Byte) (u : Unpacker) : Scaled × Unpacker :=
  if b = Tag.int8.toByte ∨ b = Tag.int16.toByte ∨ b = Tag.int32.toByte ∨ b = Tag.int64.toByte then
    (⟨(unpackInt .w64 0 u).1.toInt, 0⟩, (unpackInt .w64 0 u).2)
  else (⟨(unpackUint .w64 0 u).1.toNat, 0⟩, (unpackUint .w64 0 u).2)

/-- A floating-point number of `size` bytes behind its tag, or an integer. -/
def unpackReal {w : ℕ} (tag : Tag) (size : ℕ) (number : BitVec w → Scaled) (u : Unpacker) :
    Scaled × Unpacker :=
  let (b, u) := u.data
  if b = tag.toByte then
    let r := accumulate size 0 (u.increment 1)
    (number r.1, r.2)
  else unpackNumber b u

def unpackFloat : Unpacker → Scaled × Unpacker :=
  unpackReal .float32 4 (Scaled.ofBits (w := 32) 23 8 8 127)

def unpackDouble : Unpacker → Scaled × Unpacker :=
  unpackReal .float64 8 (Scaled.ofBits (w := 64) 52 11 16 1023)

end Float

inductive Target where
  | nullptr
  | bool
  | int (w : Width)
  | uint (w : Width)
  | float
  | double
  | string
  | bytes
  | timePoint (rep : Target)
  | array (elem : Target)
  | stdarray (n : ℕ) (elem : Target)
  | map (key value : Target)
  | tupleNil
  | tupleCons (head others : Target)
  | object (fields : Target)
  deriving DecidableEq, Repr

namespace Target

/-- The decoder after a value of this type is unpacked. A fixed array is read as a vector
first. -/
def run : Target → Unpacker → Unpacker
  | nullptr => fun u => u.increment 1
  | bool => fun u => u.data.2.increment 1
  | int w => fun u => (unpackInt w 0 u).2
  | uint w => fun u => (unpackUint w 0 u).2
  | float => fun u => (unpackFloat u).2
  | double => fun u => (unpackDouble u).2
  | string => fun u => (unpackString [] u).2
  | bytes => fun u => (unpackBytes [] u).2
  | timePoint rep => rep.run
  | array t | stdarray _ t => fun u =>
      Nat.iterate t.run (unpackSize .array u).1.toNat (unpackSize .array u).2
  | map k v => fun u =>
      Nat.iterate (fun u => v.run (k.run u)) (unpackSize .map u).1.toNat (unpackSize .map u).2
  | tupleNil => fun u => u
  | tupleCons t ts => fun u => ts.run (t.run u)
  | object t => fun u =>
      { (unpackBytes [] u).2 with error := (t.run (of (unpackBytes [] u).1)).error }

/-- The error after unpacking at the end of the buffer. Everything fails there except an empty
tuple, but the error of an object is the one of its own decoder. -/
def atEnd : Target → ErrorCode → ErrorCode
  | tupleNil, e => e
  | tupleCons t ts, e => ts.atEnd (t.atEnd e)
  | timePoint rep, e => rep.atEnd e
  | object t, _ => t.atEnd .none
  | _, _ => .outOfRange

/-- The unchecked move: a `uint64_t` is read in front of the tag of a number of 32 bits, and no
byte follows that number. -/
def skipsPast (u : Unpacker) : Prop :=
  u.rest.head? = some Tag.uint32.toByte ∧ u.rest.length ≤ 5

/-- Somewhere in a value of this type the unchecked move leaves the buffer. -/
def Oversteps : Target → Unpacker → Prop
  | uint .w64, u | float, u | double, u => skipsPast u
  | timePoint rep, u => rep.Oversteps u
  | array t, u | stdarray _ t, u =>
      ∃ i < (unpackSize .array u).1.toNat,
        t.Oversteps (Nat.iterate t.run i (unpackSize .array u).2)
  | map k v, u =>
      ∃ i < (unpackSize .map u).1.toNat,
        let u := Nat.iterate (fun u => v.run (k.run u)) i (unpackSize .map u).2
        k.Oversteps u ∨ v.Oversteps (k.run u)
  | tupleCons t ts, u => t.Oversteps u ∨ ts.Oversteps (t.run u)
  | _, _ => False

end Target

/-- A read that moves the cursor forward. If it is `still`, it does not leave the buffer. -/
structure Advances {β : Type} (still : Prop) (f : Unpacker → β × Unpacker) : Prop where
  rest : ∀ u, (f u).2.rest <:+ u.rest
  overrun : ∀ u, u.overrun ≤ (f u).2.overrun
  still : still → ∀ u, (f u).2.overrun = u.overrun

namespace Advances

variable {β γ : Type} {still : Prop}

theorem of_eq {f : Unpacker → β × Unpacker} (h : ∀ u, (f u).2.rest = u.rest)
    (ho : ∀ u, (f u).2.overrun = u.overrun) : Advances still f where
  rest u := (h u).symm ▸ List.suffix_refl _
  overrun u := (ho u).ge
  still _ := ho

theorem bind {f : Unpacker → β × Unpacker} {g : β → Unpacker → γ × Unpacker}
    (hf : Advances still f) (hg : ∀ v, Advances still (g v)) :
    Advances still fun u => g (f u).1 (f u).2 where
  rest u := ((hg _).rest _).trans (hf.rest u)
  overrun u := (hf.overrun u).trans ((hg _).overrun _)
  still hs u := ((hg _).still hs _).trans (hf.still hs u)

theorem map {f : Unpacker → β × Unpacker} (hf : Advances still f) (g : β → γ) :
    Advances still fun u => (g (f u).1, (f u).2) :=
  ⟨hf.rest, hf.overrun, hf.still⟩

theorem weaken {still' : Prop} {f : Unpacker → β × Unpacker} (hf : Advances still f)
    (hs : still' → still) : Advances still' f :=
  ⟨hf.rest, hf.overrun, fun h => hf.still (hs h)⟩

theorem data : Advances still Unpacker.data := by
  apply of_eq
  all_goals
    rintro ⟨r, o, e⟩
    cases r <;> rfl

theorem increment (v : β) (n : ℕ) : Advances still fun u => (v, u.increment n) where
  rest u := by
    unfold Unpacker.increment
    split
    · exact List.drop_suffix _ _
    · exact List.suffix_refl _
  overrun u := by
    unfold Unpacker.increment
    split <;> exact le_rfl
  still _ u := by
    unfold Unpacker.increment
    split <;> rfl

theorem next : Advances still Unpacker.next :=
  data.bind (g := fun b u => (b, u.increment 1)) fun b => increment b 1

theorem accumulate {w : ℕ} (n : ℕ) (value : BitVec w) :
    Advances still (Unpacker.accumulate n value) := by
  induction n generalizing value with
  | zero => exact of_eq (fun _ => rfl) fun _ => rfl
  | succ n ih =>
    exact next.bind
      (g := fun (b : Byte) u => Unpacker.accumulate n (value + b.setWidth w <<< (8 * n)) u)
      fun _ => ih _

theorem collect {w : ℕ} (n : ℕ) (bits : BitVec w) :
    Advances still (Unpacker.collect n bits) := by
  induction n generalizing bits with
  | zero => exact of_eq (fun _ => rfl) fun _ => rfl
  | succ n ih =>
    exact next.bind
      (g := fun (b : Byte) u => Unpacker.collect n (bits ||| b.setWidth w <<< (8 * n)) u)
      fun _ => ih _

theorem skip {f : Unpacker → β × Unpacker} (hf : Advances still f) :
    Advances still fun u => f (u.increment 1) :=
  (increment () 1).bind (g := fun _ u => f u) fun _ => hf

theorem ite {c : Prop} [Decidable c] {f g : Unpacker → β × Unpacker} (hf : Advances still f)
    (hg : Advances still g) : Advances still fun u => if c then f u else g u := by
  by_cases h : c
  · simpa only [if_pos h] using hf
  · simpa only [if_neg h] using hg

theorem rules : Rules fun _ f => Advances still f where
  map g hf := hf.map g
  ite hf hg := hf.ite hg
  look hg := data.bind hg
  next := next
  increment v := increment v 1
  tagged := next.skip
  accumulate n value := (accumulate n value).skip
  collect n bits := (collect n bits).skip

theorem advance (v : β) : Advances False fun u => (v, u.advance) where
  rest := by
    rintro ⟨r, o, e⟩
    cases r with
    | nil => exact List.suffix_refl _
    | cons b r => exact List.suffix_cons _ _
  overrun := by
    rintro ⟨r, o, e⟩
    cases r with
    | nil => exact Nat.le_succ _
    | cons b r => exact le_rfl
  still := False.elim

theorem takeBytes (size : ℕ) (value : List Byte) :
    Advances still (Rpc.takeBytes size value) := by
  have hinc : Advances still fun u => ((), u.increment size) := increment () size
  constructor
  · intro u
    unfold Rpc.takeBytes
    split
    · exact hinc.rest u
    · exact List.suffix_refl _
  · intro u
    unfold Rpc.takeBytes
    split
    · exact hinc.overrun u
    · exact le_rfl
  · intro hs u
    unfold Rpc.takeBytes
    split
    · exact hinc.still hs u
    · rfl

theorem unpackBytes (value : List Byte) : Advances still (Rpc.unpackBytes value) :=
  rules.binSize.bind (g := fun size u => Rpc.takeBytes size.toNat value u)
    fun _ => takeBytes _ value

theorem unpackString (value : List Byte) : Advances still (Rpc.unpackString value) :=
  rules.strSize.bind (g := fun size u => Rpc.takeBytes size.toNat value u)
    fun _ => takeBytes _ value

/-- Only the widest unsigned decoder has a move that is not checked. -/
theorem unpackUint (w : Width) (value : BitVec w.bits) :
    Advances (w ≠ .w64) (Rpc.unpackUint w value) := by
  apply rules.unpackUint
  rintro rfl value
  have h32 : Advances False fun u =>
      ((Unpacker.accumulate 4 value u).1, (Unpacker.accumulate 4 value u).2.advance) :=
    (accumulate 4 value).bind (g := fun v u => (v, u.advance)) advance
  exact h32.skip.weaken fun h => h rfl

theorem unpackNumber (b : Byte) : Advances False (Rpc.unpackNumber b) := by
  have hint : Advances False (Rpc.unpackInt .w64 0) := rules.unpackInt .w64 0
  have huint : Advances False (Rpc.unpackUint .w64 0) := (unpackUint .w64 0).weaken False.elim
  exact ite (hint.map fun v => (⟨v.toInt, 0⟩ : Scaled))
    (huint.map fun v => (⟨v.toNat, 0⟩ : Scaled))

theorem unpackReal {w : ℕ} (tag : Tag) (size : ℕ) (number : BitVec w → Scaled) :
    Advances False (Rpc.unpackReal tag size number) := by
  have hbits : Advances False fun u => Unpacker.accumulate size (0 : BitVec w) (u.increment 1) :=
    (accumulate size 0).skip
  exact data.bind (g := fun b u =>
    if b = tag.toByte then
      (number (Unpacker.accumulate size 0 (u.increment 1)).1,
        (Unpacker.accumulate size 0 (u.increment 1)).2)
    else Rpc.unpackNumber b u)
    fun b => (hbits.map number).ite (unpackNumber b)

theorem iterate {f : Unpacker → Unpacker} (hf : Advances still fun u => ((), f u)) (n : ℕ) :
    Advances still fun u => ((), Nat.iterate f n u) := by
  induction n with
  | zero => exact of_eq (fun _ => rfl) fun _ => rfl
  | succ n ih => exact hf.bind (g := fun _ u => ((), Nat.iterate f n u)) fun _ => ih

end Advances

section Cursor

variable {u : Unpacker}

theorem next_rest (hu : u.overrun = 0) : u.next.2.rest = u.rest.drop 1 := by
  obtain ⟨r, o, e⟩ := u
  obtain rfl : o = 0 := hu
  cases r with
  | nil => simp [next, increment]
  | cons b r => simp

theorem accumulate_rest {w : ℕ} (n : ℕ) (value : BitVec w) (hu : u.overrun = 0) :
    (accumulate n value u).2.rest = u.rest.drop n := by
  induction n generalizing value u with
  | zero => rfl
  | succ n ih =>
    have hnext : u.next.2.overrun = 0 := (Advances.next.still trivial u).trans hu
    rw [accumulate, ih _ hnext, next_rest hu, List.drop_drop, Nat.add_comm]

theorem advance_overrun (hu : u.overrun = 0) : u.advance.overrun = 0 ↔ u.rest ≠ [] := by
  obtain ⟨r, o, e⟩ := u
  cases r with
  | nil => simp [advance]
  | cons b r => simpa [advance] using hu

theorem data_spec (u : Unpacker) : ∃ b v, u.data = (b, v) ∧ v.rest = u.rest ∧
    v.overrun = u.overrun ∧ (b = Tag.uint32.toByte ↔ u.rest.head? = some Tag.uint32.toByte) := by
  obtain ⟨r, o, e⟩ := u
  cases r with
  | nil =>
    have htag : (0 : Byte) ≠ Tag.uint32.toByte := by decide
    exact ⟨0, _, rfl, rfl, rfl, fun h => absurd h htag, fun h => absurd h (by simp)⟩
  | cons b r => exact ⟨b, _, rfl, rfl, rfl, Option.some_inj.symm⟩

theorem unpackUint64_still (hb : u.rest.head? ≠ some Tag.uint32.toByte) :
    (unpackUint .w64 0 u).2.overrun = u.overrun := by
  obtain ⟨b, v, hv, -, hover, hhead⟩ := data_spec u
  have hacc (n : ℕ) := (Advances.accumulate n (0 : BitVec 64)).skip.still trivial v
  simp only [unpackUint, unpackUint64, hv, if_neg (mt hhead.mp hb)]
  split_ifs
  · exact (hacc 8).trans hover
  · exact (hacc 2).trans hover
  · exact (Advances.next.skip.still trivial v).trans hover
  · exact (Advances.next.still trivial v).trans hover

/-- The unchecked move leaves the buffer exactly when nothing is left behind the number. -/
theorem unpackUint64_overrun (hu : u.overrun = 0) :
    (unpackUint .w64 0 u).2.overrun = 0 ↔ ¬ Target.skipsPast u := by
  by_cases hb : u.rest.head? = some Tag.uint32.toByte
  · obtain ⟨r, o, e⟩ := u
    obtain rfl : o = 0 := hu
    obtain ⟨r, rfl⟩ := List.head?_eq_some_iff.mp hb
    have hacc : (accumulate 4 (0 : BitVec 64) ⟨r, 0, e⟩).2.overrun = 0 :=
      (Advances.accumulate 4 _).still trivial _
    have hrun : (unpackUint .w64 0 ⟨Tag.uint32.toByte :: r, 0, e⟩).2 =
        (accumulate 4 (0 : BitVec 64) ⟨r, 0, e⟩).2.advance := by
      have htag : Tag.uint32.toByte ≠ Tag.uint64.toByte := by decide
      simp [unpackUint, unpackUint64, htag, Width.bits]
    have hskip : Target.skipsPast ⟨Tag.uint32.toByte :: r, 0, e⟩ ↔ r.length ≤ 4 := by
      constructor
      · exact fun h => Nat.le_of_succ_le_succ h.2
      · exact fun h => ⟨rfl, Nat.succ_le_succ h⟩
    rw [hrun, advance_overrun hacc, accumulate_rest 4 _ rfl, hskip, ne_eq, List.drop_eq_nil_iff]
  · have hskip : ¬ Target.skipsPast u := fun h => hb h.1
    simp only [unpackUint64_still hb, hu, hskip, not_false_iff]

theorem unpackReal_overrun {w : ℕ} {tag : Tag} (htag : tag ≠ .uint32) (size : ℕ)
    (number : BitVec w → Scaled) (hu : u.overrun = 0) :
    (unpackReal tag size number u).2.overrun = 0 ↔ ¬ Target.skipsPast u := by
  obtain ⟨b, v, hv, hrest, hover, hhead⟩ := data_spec u
  have hskip : Target.skipsPast v ↔ Target.skipsPast u := by
    rw [Target.skipsPast, hrest]
    rfl
  -- Behind another tag the read is checked, and there is no unchecked move to make.
  have hother {t : Tag} {v' : Unpacker} (hb : b = t.toByte) (hne : t ≠ .uint32)
      (hv' : v'.overrun = v.overrun) : v'.overrun = 0 ↔ ¬ Target.skipsPast u := by
    have hbyte : t.toByte ≠ Tag.uint32.toByte := by
      revert hne
      cases t <;> decide
    have hno : ¬ Target.skipsPast u := fun h => hbyte (hb.symm.trans (hhead.mpr h.1))
    simp only [hv'.trans (hover.trans hu), hno, not_false_iff]
  simp only [unpackReal, hv]
  split_ifs with hb
  · exact hother hb htag ((Advances.accumulate size _).skip.still trivial v)
  · rw [unpackNumber]
    have hint := (Advances.rules.unpackInt .w64 0).still trivial v
    split_ifs with hb
    · rcases hb with hb | hb | hb | hb <;> exact hother hb (by decide) hint
    · rw [unpackUint64_overrun (hover.trans hu), hskip]

theorem comp_overrun {f g : Unpacker → Unpacker} {p q : Unpacker → Prop}
    (hf : ∀ u, u.overrun = 0 → ((f u).overrun = 0 ↔ ¬ p u))
    (hg : ∀ u, u.overrun = 0 → ((g u).overrun = 0 ↔ ¬ q u))
    (hmono : Advances False fun u => ((), g u)) (hu : u.overrun = 0) :
    (g (f u)).overrun = 0 ↔ ¬ (p u ∨ q (f u)) := by
  rw [not_or, ← hf u hu]
  constructor
  · intro h
    have hle : (f u).overrun ≤ (g (f u)).overrun := hmono.overrun (f u)
    have hfu : (f u).overrun = 0 := Nat.le_zero.mp (hle.trans h.le)
    exact ⟨hfu, (hg _ hfu).mp h⟩
  · rintro ⟨hfu, h⟩
    exact (hg _ hfu).mpr h

theorem iterate_overrun {f : Unpacker → Unpacker} {p : Unpacker → Prop}
    (hf : ∀ u, u.overrun = 0 → ((f u).overrun = 0 ↔ ¬ p u))
    (hmono : Advances False fun u => ((), f u)) (n : ℕ) : ∀ u, u.overrun = 0 →
      ((Nat.iterate f n u).overrun = 0 ↔ ¬ ∃ i < n, p (Nat.iterate f i u)) := by
  induction n with
  | zero => exact fun u hu => by simpa using hu
  | succ n ih =>
    intro u hu
    -- The first element is the one at zero, the others are those of the rest of the loop.
    have hsplit : (∃ i < n + 1, p (Nat.iterate f i u)) ↔
        p u ∨ ∃ i < n, p (Nat.iterate f i (f u)) := by
      constructor
      · rintro ⟨i, hi, hp⟩
        cases i with
        | zero => exact Or.inl hp
        | succ i => exact Or.inr ⟨i, Nat.lt_of_succ_lt_succ hi, hp⟩
      · rintro (hp | ⟨i, hi, hp⟩)
        · exact ⟨0, Nat.succ_pos n, hp⟩
        · exact ⟨i + 1, Nat.succ_lt_succ hi, hp⟩
    rw [hsplit]
    exact comp_overrun hf ih (hmono.iterate n) hu

namespace Target

theorem advances_run (t : Target) : Advances False fun u => ((), t.run u) := by
  have hmap {β : Type} {f : Unpacker → β × Unpacker} (h : Advances False f) :
      Advances False fun u => ((), (f u).2) :=
    h.map fun _ => ()
  induction t with
  | nullptr => exact Advances.increment () 1
  | bool =>
    exact Advances.data.bind (g := fun _ u => ((), u.increment 1))
      fun _ => Advances.increment () 1
  | int w => exact hmap (Advances.rules.unpackInt w 0)
  | uint w => exact hmap ((Advances.unpackUint w 0).weaken False.elim)
  | float | double => exact hmap (Advances.unpackReal _ _ _)
  | string => exact hmap (Advances.unpackString [])
  | bytes => exact hmap (Advances.unpackBytes [])
  | timePoint rep ih => exact ih
  | array t ih | stdarray _ t ih =>
    exact (Advances.rules.unpackSize .array).bind
      (g := fun n u => ((), Nat.iterate t.run n.toNat u)) fun n => ih.iterate n.toNat
  | map k v ihk ihv =>
    have hentry := ihk.bind (g := fun _ u => ((), v.run u)) fun _ => ihv
    exact (Advances.rules.unpackSize .map).bind
      (g := fun n u => ((), Nat.iterate (fun u => v.run (k.run u)) n.toNat u))
      fun n => hentry.iterate n.toNat
  | tupleNil => exact Advances.of_eq (fun _ => rfl) fun _ => rfl
  | tupleCons t ts iht ihts => exact iht.bind (g := fun _ u => ((), ts.run u)) fun _ => ihts
  | object t =>
    have hbytes : Advances False (unpackBytes []) := Advances.unpackBytes []
    exact ⟨hbytes.rest, hbytes.overrun, False.elim⟩

theorem run_overrun (t : Target) : ∀ u : Unpacker, u.overrun = 0 →
    ((t.run u).overrun = 0 ↔ ¬ t.Oversteps u) := by
  have hstill {β : Type} {f : Unpacker → β × Unpacker} (hf : Advances True f) (u : Unpacker)
      (hu : u.overrun = 0) : (f u).2.overrun = 0 ↔ ¬ False :=
    ⟨fun _ => not_false, fun _ => (hf.still trivial u).trans hu⟩
  induction t with
  | nullptr => exact hstill (Advances.increment () 1)
  | bool =>
    exact hstill (Advances.data.bind (g := fun _ u => ((), u.increment 1))
      fun _ => Advances.increment () 1)
  | int w => exact hstill (Advances.rules.unpackInt w 0)
  | uint w =>
    cases w with
    | w8 => exact hstill ((Advances.unpackUint .w8 0).weaken fun _ => by decide)
    | w16 => exact hstill ((Advances.unpackUint .w16 0).weaken fun _ => by decide)
    | w32 => exact hstill ((Advances.unpackUint .w32 0).weaken fun _ => by decide)
    | w64 => exact fun _ => unpackUint64_overrun
  | float | double => exact fun _ => unpackReal_overrun (by decide) _ _
  | string => exact hstill (Advances.unpackString [])
  | bytes => exact hstill (Advances.unpackBytes [])
  | timePoint rep ih => exact ih
  | array t ih | stdarray _ t ih =>
    intro u hu
    have hsize := (Advances.rules.unpackSize .array).still trivial u
    exact iterate_overrun ih t.advances_run _ _ (hsize.trans hu)
  | map k v ihk ihv =>
    intro u hu
    have hsize := (Advances.rules.unpackSize .map).still trivial u
    exact iterate_overrun (fun _ => comp_overrun ihk ihv v.advances_run)
      (k.advances_run.bind (g := fun _ u => ((), v.run u)) fun _ => v.advances_run) _ _
      (hsize.trans hu)
  | tupleNil => exact fun u hu => ⟨fun _ => not_false, fun _ => hu⟩
  | tupleCons t ts iht ihts => exact fun _ => comp_overrun iht ihts ts.advances_run
  | object t => exact hstill (Advances.unpackBytes [])

section AtEnd

variable {o : ℕ} {e : ErrorCode}

theorem reads_atEnd {β : Type} {f : Unpacker → β × Unpacker} (hf : Reads False False f)
    (hdata : f ⟨[], o, e⟩ = f ⟨[], o, .outOfRange⟩) (hover : (f ⟨[], o, e⟩).2.overrun = o) :
    (f ⟨[], o, e⟩).2 = ⟨[], o, .outOfRange⟩ := by
  obtain ⟨v, r', o', failed, h⟩ := hf [] o (Or.inr rfl)
  rw [h.eq] at hover
  obtain rfl : o' = o := hover
  rw [hdata, h.eq, h.nil rfl, ite_self]

theorem unpackUint_atEnd (w : Width) :
    (unpackUint w 0 ⟨[], o, e⟩).2 = ⟨[], o, .outOfRange⟩ := by
  refine reads_atEnd (Reads.unpackUint w 0) (by cases w <;> rfl) ?_
  by_cases hw : w = .w64
  · subst hw
    exact unpackUint64_still (by simp)
  · exact (Advances.unpackUint w 0).still hw _

theorem unpackReal_atEnd {w : ℕ} {tag : Tag} (htag : (0 : Byte) ≠ tag.toByte) (size : ℕ)
    (number : BitVec w → Scaled) :
    (unpackReal tag size number ⟨[], o, e⟩).2 = ⟨[], o, .outOfRange⟩ := by
  have hint : ¬ ((0 : Byte) = Tag.int8.toByte ∨ (0 : Byte) = Tag.int16.toByte ∨
      (0 : Byte) = Tag.int32.toByte ∨ (0 : Byte) = Tag.int64.toByte) := by decide
  have hreal : unpackReal tag size number ⟨[], o, e⟩ = unpackNumber 0 ⟨[], o, .outOfRange⟩ :=
    if_neg htag
  rw [hreal, unpackNumber, if_neg hint]
  exact unpackUint_atEnd .w64

theorem unpackSize_atEnd {header : Header} (hzero : (unpackSize header ⟨[], o, e⟩).1 = 0) :
    unpackSize header ⟨[], o, e⟩ = (0, ⟨[], o, .outOfRange⟩) :=
  Prod.ext hzero (reads_atEnd (Reads.unpackSize header) rfl
    ((Advances.rules.unpackSize header).still trivial _))

theorem unpackBytes_atEnd :
    unpackBytes [] ⟨[], o, e⟩ = ([], ⟨[], o, .outOfRange⟩) :=
  Prod.ext (unpackBytes_nil rfl) (reads_atEnd (Reads.unpackBytes []) rfl
    ((Advances.unpackBytes []).still trivial _))

/-- What unpacking does at the end of the buffer. -/
theorem run_atEnd (t : Target) (o : ℕ) (e : ErrorCode) :
    t.run ⟨[], o, e⟩ = ⟨[], o, t.atEnd e⟩ := by
  induction t generalizing o e with
  | nullptr => simp [run, atEnd, increment]
  | bool => simp [run, atEnd, increment]
  | int w =>
    exact reads_atEnd (Reads.unpackInt w 0) (by cases w <;> rfl)
      ((Advances.rules.unpackInt w 0).still trivial _)
  | uint w => exact unpackUint_atEnd w
  | float | double => exact unpackReal_atEnd (by decide) _ _
  | string =>
    exact reads_atEnd (Reads.unpackString []) rfl ((Advances.unpackString []).still trivial _)
  | bytes => exact congrArg Prod.snd unpackBytes_atEnd
  | timePoint rep ih => exact ih o e
  | array t ih | stdarray _ t ih =>
    have hsize : unpackSize .array ⟨[], o, e⟩ = (0, ⟨[], o, .outOfRange⟩) :=
      unpackSize_atEnd rfl
    simp only [run, hsize]
    rfl
  | map k v ihk ihv =>
    have hsize : unpackSize .map ⟨[], o, e⟩ = (0, ⟨[], o, .outOfRange⟩) :=
      unpackSize_atEnd rfl
    simp only [run, hsize]
    rfl
  | tupleNil => rfl
  | tupleCons t ts iht ihts => exact (congrArg ts.run (iht o e)).trans (ihts o _)
  | object t ih =>
    simp only [run, unpackBytes_atEnd, of, ih]
    rfl

end AtEnd

end Target

end Cursor

/-- A decoder and the calls made on it. Each is answered by the error it leaves. -/
def unpackMachine : Machine Unpacker Target ErrorCode where
  step u t := (t.run u, (t.run u).error)

def Target.reads : Target → Bool
  | tupleNil => false
  | tupleCons t ts => t.reads || ts.reads
  | timePoint rep => rep.reads
  | _ => true

theorem run_advances (calls : List Target) (u : Unpacker) :
    (unpackMachine.run u calls).1.rest <:+ u.rest ∧
      u.overrun ≤ (unpackMachine.run u calls).1.overrun := by
  refine unpackMachine.run_keeps (P := fun v => v.rest <:+ u.rest ∧ u.overrun ≤ v.overrun)
    ?_ ⟨List.suffix_refl _, le_rfl⟩ calls
  rintro v t ⟨hrest, hover⟩
  exact ⟨(t.advances_run.rest v).trans hrest, hover.trans (t.advances_run.overrun v)⟩

/-- The cursor stays in the buffer, and every call that reads at the end of it leaves an error,
exactly when no call makes the unchecked move at the end of the buffer, and none that is made
at the end forgets the error of a read. The cursor never moves backwards, and every single
read at the end sets the error. -/
theorem cursor_inside_iff (bytes : List Byte) (calls : List Target) :
    (((∀ n, (unpackMachine.run (of bytes) (calls.take n)).1.rest <:+ bytes ∧
          (unpackMachine.run (of bytes) (calls.take n)).1.overrun = 0) ∧
        unpackMachine.Along
          (fun u t => u.rest = [] → t.reads = true → (t.run u).error = .outOfRange)
          (of bytes) calls) ↔
      unpackMachine.Along
        (fun u t => ¬ t.Oversteps u ∧
          (u.rest = [] → t.reads = true → t.atEnd u.error = .outOfRange)) (of bytes) calls) ∧
    (∀ u, (unpackMachine.run u calls).1.rest <:+ u.rest ∧
      u.overrun ≤ (unpackMachine.run u calls).1.overrun) ∧
    ∀ u : Unpacker, u.rest = [] → u.data.2.error = .outOfRange ∧
      ∀ k > 0, (u.increment k).error = .outOfRange ∧
        ∀ value, (takeBytes k value u).2.error = .outOfRange := by
  refine ⟨?_, run_advances calls, ?_⟩
  · rw [unpackMachine.along_and]
    refine and_congr ?_ ?_
    · have hrest (n : ℕ) : (unpackMachine.run (of bytes) (calls.take n)).1.rest <:+ bytes :=
        (run_advances _ _).1
      simp only [hrest, true_and]
      exact unpackMachine.run_always_iff (P := fun u => u.overrun = 0)
        (fun u t => t.run_overrun u) rfl calls
    · have herror (u : Unpacker) (t : Target) :
          (u.rest = [] → t.reads = true → (t.run u).error = .outOfRange) ↔
            (u.rest = [] → t.reads = true → t.atEnd u.error = .outOfRange) := by
        obtain ⟨r, o, e⟩ := u
        refine forall_congr' ?_
        rintro rfl
        rw [t.run_atEnd]
      simp only [herror]
  · rintro ⟨r, o, e⟩ rfl
    refine ⟨rfl, fun k hk => ?_⟩
    have hlen : ¬ (o = 0 ∧ k ≤ ([] : List Byte).length) := fun h => absurd h.2 (by simp; omega)
    constructor
    · rw [increment, if_neg hlen]
    · intro value
      rw [takeBytes, if_neg hlen]

/-- The number 65536 is packed as a tag and four bytes. Unpacked as `uint64_t`, it leaves the
cursor one byte behind the buffer. And an object without fields clears the error of the read
that failed for it. -/
theorem cursor_leaves_buffer :
    packUint .w64 65536 = [6, 0, 1, 0, 0] ∧
    (unpackMachine.run (of [6, 0, 1, 0, 0]) [.uint .w64]).1 = ⟨[], 1, .none⟩ ∧
    unpackMachine.run (of []) [.object .tupleNil] = (⟨[], 0, .none⟩, [.none]) := by
  decide

end Plain.Rpc
