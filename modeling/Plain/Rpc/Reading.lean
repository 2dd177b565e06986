import Plain.Rpc.Codec

/-! # What a read does to the decoder

The reads of the unpacker depend on the bytes in front of the cursor alone. They set
the error or leave it as it was, and one that sets no error does the same in front of
a longer input.
-/

namespace Plain.Rpc

open Unpacker

/-- The outcome of a read in front of the given bytes. A `hard` read fails only at the
end of the input; a `still` one does not move the cursor past it. -/
structure Leads {β : Type} (hard still : Prop) (f : Unpacker → β × Unpacker) (r : List Byte)
    (o : ℕ) (v : β) (r' : List Byte) (o' : ℕ) (failed : Bool) : Prop where
  eq : ∀ e, f ⟨r, o, e⟩ = (v, ⟨r', o', if failed then .outOfRange else e⟩)
  ended : hard → failed = true → r' = []
  nil : r = [] → r' = []
  valid : o' = 0 ∨ r' = []
  overrun : o' = 0 → o = 0
  still : still → o' = o
  more : failed = false → o' = 0 → ∀ q e, f ⟨r ++ q, 0, e⟩ = (v, ⟨r' ++ q, 0, e⟩)

def Reads {β : Type} (hard still : Prop) (f : Unpacker → β × Unpacker) : Prop :=
  ∀ r o, o = 0 ∨ r = [] → ∃ v r' o' failed, Leads hard still f r o v r' o' failed

/-- The size that `unpackBytes` reads before the bytes. -/
def binSize (u : Unpacker) : BitVec 64 × Unpacker :=
  let (b, u) := u.data
  if b = Tag.bin32.toByte then accumulate 4 0 (u.increment 1)
  else if b = Tag.bin16.toByte then accumulate 2 0 (u.increment 1)
  else accumulate 1 0 (u.increment 1)

/-- The size that `unpackString` reads before the characters. -/
def strSize (u : Unpacker) : BitVec 64 × Unpacker :=
  let (b, u) := u.data
  if b = Tag.str32.toByte then accumulate 4 (0 : BitVec 64) (u.increment 1)
  else if b = Tag.str16.toByte then accumulate 2 0 (u.increment 1)
  else if b = Tag.str8.toByte then accumulate 1 0 (u.increment 1)
  else ((b &&& 0b00011111).setWidth 64, u.increment 1)

/-- A property of reads that passes from the steps of the decoders of integers and sizes to
the decoders themselves. -/
structure Rules (p : (β : Type) → (Unpacker → β × Unpacker) → Prop) : Prop where
  map {β γ : Type} {f : Unpacker → β × Unpacker} (g : β → γ) :
    p β f → p γ fun u => (g (f u).1, (f u).2)
  ite {β : Type} {c : Prop} [Decidable c] {f g : Unpacker → β × Unpacker} :
    p β f → p β g → p β fun u => if c then f u else g u
  look {β : Type} {g : Byte → Unpacker → β × Unpacker} :
    (∀ b, p β (g b)) → p β fun u => g u.data.1 u.data.2
  next : p Byte Unpacker.next
  increment {β : Type} (v : β) : p β fun u => (v, u.increment 1)
  tagged : p Byte fun u => (u.increment 1).next
  accumulate {w : ℕ} (n : ℕ) (value : BitVec w) :
    p _ fun u => Unpacker.accumulate n value (u.increment 1)
  collect {w : ℕ} (n : ℕ) (bits : BitVec w) :
    p _ fun u => Unpacker.collect n bits (u.increment 1)

namespace Rules

variable {p : (β : Type) → (Unpacker → β × Unpacker) → Prop} (h : Rules p)

include h

theorem widen {f : Unpacker → Byte × Unpacker} (hf : p _ f) {w : ℕ} :
    p _ fun u => Rpc.widen (w := w) (f u) :=
  h.map (fun v => v.setWidth w) hf

theorem widenSigned {v w : ℕ} {f : Unpacker → BitVec v × Unpacker} (hf : p _ f) :
    p _ fun u => Rpc.widenSigned (w := w) (f u) :=
  h.map (fun x => x.signExtend w) hf

theorem fromBits {w : ℕ} (promoted : ℕ) {f : Unpacker → BitVec w × Unpacker} (hf : p _ f) :
    p _ fun u => Rpc.fromBits promoted (f u) :=
  h.map (fun x => if x.msb then
    ((-1 : BitVec promoted) * ((~~~x).setWidth promoted + 1)).setWidth w else x) hf

theorem unpackUint (w : Width) (hadvance : w = .w64 → ∀ value : BitVec 64,
      p _ fun u => ((Unpacker.accumulate 4 value (u.increment 1)).1,
        (Unpacker.accumulate 4 value (u.increment 1)).2.advance))
    (value : BitVec w.bits) : p _ (Rpc.unpackUint w value) := by
  cases w with
  | w8 =>
    exact h.look (g := fun b u =>
      if b = Tag.uint8.toByte then (u.increment 1).next else u.next)
      fun _ => h.ite h.tagged h.next
  | w16 =>
    exact h.look (g := fun b u =>
      if b = Tag.uint16.toByte then Unpacker.accumulate 2 value (u.increment 1)
      else if b = Tag.uint8.toByte then Rpc.widen (u.increment 1).next
      else Rpc.widen u.next)
      fun _ => h.ite (h.accumulate 2 value) (h.ite (h.widen h.tagged) (h.widen h.next))
  | w32 =>
    exact h.look (g := fun b u =>
      if b = Tag.uint32.toByte then Unpacker.accumulate 4 value (u.increment 1)
      else if b = Tag.uint16.toByte then Unpacker.accumulate 2 value (u.increment 1)
      else if b = Tag.uint8.toByte then Rpc.widen (u.increment 1).next
      else Rpc.widen u.next)
      fun _ => h.ite (h.accumulate 4 value)
        (h.ite (h.accumulate 2 value) (h.ite (h.widen h.tagged) (h.widen h.next)))
  | w64 =>
    exact h.look (g := fun b u =>
      if b = Tag.uint64.toByte then Unpacker.accumulate 8 value (u.increment 1)
      else if b = Tag.uint32.toByte then
        ((Unpacker.accumulate 4 value (u.increment 1)).1,
          (Unpacker.accumulate 4 value (u.increment 1)).2.advance)
      else if b = Tag.uint16.toByte then Unpacker.accumulate 2 value (u.increment 1)
      else if b = Tag.uint8.toByte then Rpc.widen (u.increment 1).next
      else Rpc.widen u.next)
      fun _ => h.ite (h.accumulate 8 value) (h.ite (hadvance rfl value)
        (h.ite (h.accumulate 2 value) (h.ite (h.widen h.tagged) (h.widen h.next))))

theorem unpackInt8 : p _ Rpc.unpackInt8 :=
  h.look (g := fun b u =>
    if b = Tag.int8.toByte then (u.increment 1).next else u.next) fun _ => h.ite h.tagged h.next

theorem unpackInt16 : p _ Rpc.unpackInt16 :=
  h.look (g := fun b u =>
    if b = Tag.int16.toByte then Rpc.fromBits 32 (Unpacker.collect 2 0 (u.increment 1))
    else if b = Tag.int8.toByte then Rpc.widenSigned (Rpc.unpackInt8 u)
    else Rpc.widen u.next)
    fun _ => h.ite (h.fromBits 32 (h.collect 2 0))
      (h.ite (h.widenSigned h.unpackInt8) (h.widen h.next))

theorem unpackInt32 : p _ Rpc.unpackInt32 :=
  h.look (g := fun b u =>
    if b = Tag.int32.toByte then Rpc.fromBits 64 (Unpacker.collect 4 0 (u.increment 1))
    else if b = Tag.int16.toByte then Rpc.widenSigned (Rpc.unpackInt16 u)
    else if b = Tag.int8.toByte then Rpc.widenSigned (Rpc.unpackInt8 u)
    else Rpc.widen u.next)
    fun _ => h.ite (h.fromBits 64 (h.collect 4 0)) (h.ite (h.widenSigned h.unpackInt16)
      (h.ite (h.widenSigned h.unpackInt8) (h.widen h.next)))

theorem unpackInt64 : p _ Rpc.unpackInt64 :=
  h.look (g := fun b u =>
    if b = Tag.int64.toByte then Rpc.fromBits 64 (Unpacker.collect 8 0 (u.increment 1))
    else if b = Tag.int32.toByte then Rpc.widenSigned (Rpc.unpackInt32 u)
    else if b = Tag.int16.toByte then Rpc.widenSigned (Rpc.unpackInt16 u)
    else if b = Tag.int8.toByte then Rpc.widenSigned (Rpc.unpackInt8 u)
    else Rpc.widen u.next)
    fun _ => h.ite (h.fromBits 64 (h.collect 8 0)) (h.ite (h.widenSigned h.unpackInt32)
      (h.ite (h.widenSigned h.unpackInt16)
        (h.ite (h.widenSigned h.unpackInt8) (h.widen h.next))))

theorem unpackInt (w : Width) (value : BitVec w.bits) : p _ (Rpc.unpackInt w value) := by
  cases w with
  | w8 => exact h.unpackInt8
  | w16 => exact h.unpackInt16
  | w32 => exact h.unpackInt32
  | w64 => exact h.unpackInt64

theorem binSize : p _ Rpc.binSize :=
  h.look (g := fun b u =>
    if b = Tag.bin32.toByte then Unpacker.accumulate 4 0 (u.increment 1)
    else if b = Tag.bin16.toByte then Unpacker.accumulate 2 0 (u.increment 1)
    else Unpacker.accumulate 1 0 (u.increment 1))
    fun _ => h.ite (h.accumulate 4 0) (h.ite (h.accumulate 2 0) (h.accumulate 1 0))

theorem strSize : p _ Rpc.strSize :=
  h.look (g := fun b u =>
    if b = Tag.str32.toByte then Unpacker.accumulate 4 (0 : BitVec 64) (u.increment 1)
    else if b = Tag.str16.toByte then Unpacker.accumulate 2 0 (u.increment 1)
    else if b = Tag.str8.toByte then Unpacker.accumulate 1 0 (u.increment 1)
    else ((b &&& 0b00011111).setWidth 64, u.increment 1))
    fun _ => h.ite (h.accumulate 4 0) (h.ite (h.accumulate 2 0)
      (h.ite (h.accumulate 1 0) (h.increment _)))

theorem unpackSize (header : Header) : p _ (Rpc.unpackSize header) :=
  h.look (g := fun b u =>
    if b = header.tag32.toByte then Unpacker.accumulate 4 0 (u.increment 1)
    else if b = header.tag16.toByte then Unpacker.accumulate 2 0 (u.increment 1)
    else ((b &&& 0x0f).setWidth 64, u.increment 1))
    fun _ => h.ite (h.accumulate 4 0) (h.ite (h.accumulate 2 0) (h.increment _))

end Rules

namespace Reads

variable {β γ : Type} {hard still : Prop}

theorem pure (v : β) : Reads hard still fun u => (v, u) := by
  intro r o hro
  refine ⟨v, r, o, false, ?_⟩
  exact ⟨fun _ => rfl, fun _ h => by simp at h, fun h => h, hro, fun h => h, fun _ => rfl,
    fun _ _ _ _ => rfl⟩

theorem bind {f : Unpacker → β × Unpacker} {g : β → Unpacker → γ × Unpacker}
    (hf : Reads hard still f) (hg : ∀ v, Reads hard still (g v)) :
    Reads hard still fun u => g (f u).1 (f u).2 := by
  intro r o hro
  obtain ⟨v, r₁, o₁, failed₁, h₁⟩ := hf r o hro
  obtain ⟨v', r₂, o₂, failed₂, h₂⟩ := hg v r₁ o₁ h₁.valid
  refine ⟨v', r₂, o₂, failed₁ || failed₂, ?_⟩
  refine ⟨fun e => ?_, fun hh hfail => ?_, fun hr => h₂.nil (h₁.nil hr), h₂.valid,
    fun ho => h₁.overrun (h₂.overrun ho), fun hs => (h₂.still hs).trans (h₁.still hs),
    fun hfail ho q e => ?_⟩
  · simp only [h₁.eq e, h₂.eq]
    cases failed₁ <;> cases failed₂ <;> rfl
  · rcases Bool.or_eq_true_iff.mp hfail with hfail | hfail
    · exact h₂.nil (h₁.ended hh hfail)
    · exact h₂.ended hh hfail
  · obtain ⟨hfail₁, hfail₂⟩ := Bool.or_eq_false_iff.mp hfail
    simp only [h₁.more hfail₁ (h₂.overrun ho) q e, h₂.more hfail₂ ho q e]

theorem map {f : Unpacker → β × Unpacker} (hf : Reads hard still f) (g : β → γ) :
    Reads hard still fun u => (g (f u).1, (f u).2) :=
  hf.bind (g := fun v u => (g v, u)) fun v => pure (g v)

theorem weaken {hard' still' : Prop} {f : Unpacker → β × Unpacker} (hf : Reads hard still f)
    (hh : hard' → hard) (hs : still' → still) : Reads hard' still' f := by
  intro r o hro
  obtain ⟨v, r', o', failed, h⟩ := hf r o hro
  exact ⟨v, r', o', failed, h.eq, fun hhard => h.ended (hh hhard), h.nil, h.valid, h.overrun,
    fun hstill => h.still (hs hstill), h.more⟩

theorem iterate {f : Unpacker → Unpacker} (hf : Reads hard still fun u => ((), f u)) (n : ℕ) :
    Reads hard still fun u => ((), Nat.iterate f n u) := by
  induction n with
  | zero => exact pure ()
  | succ n ih => exact hf.bind (g := fun _ u => ((), Nat.iterate f n u)) fun _ => ih

theorem data : Reads hard still Unpacker.data := by
  intro r o hro
  cases r with
  | nil =>
    refine ⟨0, [], o, true, fun _ => rfl, fun _ _ => rfl, fun h => h, hro, fun h => h,
      fun _ => rfl, fun h => by simp at h⟩
  | cons b bs =>
    exact ⟨b, b :: bs, o, false, fun _ => rfl, fun _ h => by simp at h, fun h => h, hro,
      fun h => h, fun _ => rfl, fun _ _ _ _ => rfl⟩

theorem increment (v : β) : Reads hard still fun u => (v, u.increment 1) := by
  intro r o hro
  cases r with
  | nil =>
    refine ⟨v, [], o, true, fun e => ?_, fun _ _ => rfl, fun h => h, hro, fun h => h,
      fun _ => rfl, fun h => by simp at h⟩
    simp [Unpacker.increment]
  | cons b bs =>
    obtain rfl : o = 0 := hro.resolve_right (by simp)
    refine ⟨v, bs, 0, false, fun e => ?_, fun _ h => by simp at h, fun h => by simp at h,
      hro.imp id (by simp), fun h => h, fun _ => rfl, fun _ _ q e => ?_⟩
    · simp
    · simp

theorem dataIncrement : Reads hard still fun u => ((), u.data.2.increment 1) :=
  data.bind (g := fun _ u => ((), u.increment 1)) fun _ => increment ()

theorem next : Reads hard still Unpacker.next :=
  data.bind (g := fun b u => (b, u.increment 1)) increment

theorem accumulate {w : ℕ} (k : ℕ) (value : BitVec w) :
    Reads hard still (Unpacker.accumulate k value) := by
  induction k generalizing value with
  | zero => exact pure value
  | succ k ih =>
    exact next.bind
      (g := fun (b : Byte) u => Unpacker.accumulate k (value + b.setWidth w <<< (8 * k)) u)
      fun _ => ih _

theorem collect {w : ℕ} (k : ℕ) (bits : BitVec w) :
    Reads hard still (Unpacker.collect k bits) := by
  induction k generalizing bits with
  | zero => exact pure bits
  | succ k ih =>
    exact next.bind
      (g := fun (b : Byte) u => Unpacker.collect k (bits ||| b.setWidth w <<< (8 * k)) u)
      fun _ => ih _

theorem advance (v : β) : Reads hard False fun u => (v, u.advance) := by
  intro r o hro
  cases r with
  | nil =>
    exact ⟨v, [], o + 1, false, fun _ => rfl, fun _ h => by simp at h, fun h => h, Or.inr rfl,
      fun h => by simp at h, False.elim, fun _ h => by simp at h⟩
  | cons b bs =>
    obtain rfl : o = 0 := hro.resolve_right (by simp)
    exact ⟨v, bs, 0, false, fun _ => rfl, fun _ h => by simp at h, fun h => by simp at h,
      Or.inl rfl, fun h => h, False.elim, fun _ _ _ _ => rfl⟩

theorem takeBytes (size : ℕ) (value : List Byte) :
    Reads False still (Rpc.takeBytes size value) := by
  intro r o hro
  by_cases h : o = 0 ∧ size ≤ r.length
  · obtain ⟨rfl, hle⟩ := h
    refine ⟨r.take size, r.drop size, 0, false, fun e => ?_, False.elim, fun h => by simp [h],
      Or.inl rfl, fun h => h, fun _ => rfl, fun _ _ q e => ?_⟩
    · simp [Rpc.takeBytes, Unpacker.increment, hle]
    · have hle' : size ≤ (r ++ q).length := by
        rw [List.length_append]
        omega
      rw [Rpc.takeBytes, if_pos ⟨rfl, hle'⟩, Unpacker.increment, if_pos ⟨rfl, hle'⟩]
      simp only [List.take_append_of_le_length hle, List.drop_append_of_le_length hle]
  · refine ⟨value, r, o, true, fun e => ?_, False.elim, fun h => h, hro, fun h => h,
      fun _ => rfl, fun h => by simp at h⟩
    rw [Rpc.takeBytes, if_neg h]
    rfl

theorem ite {c : Prop} [Decidable c] {f g : Unpacker → β × Unpacker} (hf : Reads hard still f)
    (hg : Reads hard still g) : Reads hard still fun u => if c then f u else g u := by
  by_cases h : c
  · simpa only [if_pos h] using hf
  · simpa only [if_neg h] using hg

theorem skip {f : Unpacker → β × Unpacker} (hf : Reads hard still f) :
    Reads hard still fun u => f (u.increment 1) :=
  (increment ()).bind (g := fun _ u => f u) fun _ => hf

theorem rules : Rules fun _ f => Reads hard still f where
  map g hf := hf.map g
  ite hf hg := hf.ite hg
  look hg := data.bind hg
  next := next
  increment := increment
  tagged := next.skip
  accumulate n value := (accumulate n value).skip
  collect n bits := (collect n bits).skip

theorem unpackUint (w : Width) (value : BitVec w.bits) :
    Reads hard False (Rpc.unpackUint w value) := by
  apply rules.unpackUint
  intro _ value
  have h32 : Reads hard False fun u =>
      ((Unpacker.accumulate 4 value u).1, (Unpacker.accumulate 4 value u).2.advance) :=
    (accumulate 4 value).bind (g := fun v u => (v, u.advance)) advance
  exact h32.skip

theorem unpackInt (w : Width) (value : BitVec w.bits) :
    Reads hard still (Rpc.unpackInt w value) :=
  rules.unpackInt w value

theorem binSize : Reads hard still Rpc.binSize := rules.binSize

theorem unpackSize (h : Header) : Reads hard still (Rpc.unpackSize h) := rules.unpackSize h

theorem unpackBytes (value : List Byte) : Reads False still (Rpc.unpackBytes value) :=
  binSize.bind (g := fun size u => Rpc.takeBytes size.toNat value u) fun _ => takeBytes _ value

theorem unpackString (value : List Byte) : Reads False still (Rpc.unpackString value) :=
  rules.strSize.bind (g := fun size u => Rpc.takeBytes size.toNat value u)
    fun _ => takeBytes _ value

end Reads

end Plain.Rpc
