import Plain.Rpc.Composition
import Plain.Rpc.Reading

/-! # Shapes of destination types

Where a decoder stands after unpacking, and with which error, depends on the shape of
the destination type alone and not on the values it stores.
-/

namespace Plain.Rpc

open Unpacker

inductive Shape where
  | nullptr
  | bool
  | int (w : Width)
  | uint (w : Width)
  | string
  | bytes
  | array (elem : Shape)
  | map (key value : Shape)
  | tupleNil
  | tupleCons (head others : Shape)
  | object (fields : Shape)
  deriving DecidableEq, Repr

namespace Shape

/-- The decoder after a value of this shape is unpacked. -/
def run : Shape → Unpacker → Unpacker
  | nullptr => fun u => u.increment 1
  | bool => fun u => u.data.2.increment 1
  | int w => fun u => (unpackInt w 0 u).2
  | uint w => fun u => (unpackUint w 0 u).2
  | string => fun u => (unpackString [] u).2
  | bytes => fun u => (unpackBytes [] u).2
  | array s => fun u =>
      Nat.iterate s.run (unpackSize .array u).1.toNat (unpackSize .array u).2
  | map k v => fun u =>
      Nat.iterate (fun u => v.run (k.run u)) (unpackSize .map u).1.toNat (unpackSize .map u).2
  | tupleNil => fun u => u
  | tupleCons s t => fun u => t.run (s.run u)
  | object s => fun u =>
      { (unpackBytes [] u).2 with error := (s.run (of (unpackBytes [] u).1)).error }

theorem run_object {s : Shape} {u u' : Unpacker} {data : List Byte}
    (h : unpackBytes [] u = (data, u')) :
    (object s).run u = { u' with error := (s.run (of data)).error } := by
  simp only [run, h]

def objectFree : Shape → Bool
  | array s => s.objectFree
  | map k v => k.objectFree && v.objectFree
  | tupleCons s t => s.objectFree && t.objectFree
  | object _ => false
  | _ => true

def unsignedFree : Shape → Bool
  | uint _ => false
  | array s => s.unsignedFree
  | map k v => k.unsignedFree && v.unsignedFree
  | tupleCons s t => s.unsignedFree && t.unsignedFree
  | object s => s.unsignedFree
  | _ => true

/-- Somewhere the decoder checks a length, which can fail in front of bytes. -/
def soft : Shape → Bool
  | string | bytes | object _ => true
  | array s => s.soft
  | map k v => k.soft || v.soft
  | tupleCons s t => s.soft || t.soft
  | _ => false

end Shape

/-- The codecs of the types of a shape, each with the values whose sizes its headers can
announce. -/
inductive Describes : Shape → {α : Type} → Codec α → (α → Prop) → Prop
  | nullptr : Describes .nullptr .nullptr fun _ => True
  | bool : Describes .bool .bool fun _ => True
  | int (w : Width) : Describes (.int w) (.int w) fun _ => True
  | uint (w : Width) : Describes (.uint w) (.uint w) fun _ => True
  | string : Describes .string .string fun x => x.length < 2 ^ 32 - 1
  | bytes : Describes .bytes .bytes fun x => x.length < 2 ^ 32 - 1
  | array {α : Type} {s : Shape} {c : Codec α} {P : α → Prop} : Describes s c P →
      Describes (.array s) c.array fun xs => xs.length < 2 ^ 32 - 1 ∧ ∀ x ∈ xs, P x
  | map {κ β : Type} [DecidableEq κ] {s t : Shape} {k : Codec κ} {v : Codec β} {R : κ → Prop}
      {Q : β → Prop} (it : Codec.Iteration κ β) : Describes s k R → Describes t v Q →
      Describes (.map s t) (.map it k v) fun m =>
        m.entries.card < 2 ^ 32 - 1 ∧ ∀ e ∈ m.entries, R e.1 ∧ Q e.2
  | tupleNil : Describes .tupleNil .tupleNil fun _ => True
  | tupleCons {α β : Type} {s t : Shape} {c : Codec α} {cs : Codec β} {P : α → Prop}
      {Q : β → Prop} : Describes s c P → Describes t cs Q →
      Describes (.tupleCons s t) (c.tupleCons cs) fun x => P x.1 ∧ Q x.2
  | object {φ : Type} {s : Shape} {c : Codec φ} {P : φ → Prop} : Describes s c P →
      Describes (.object s) c.object fun x => (c.pack x.fields).length < 2 ^ 32 - 1 ∧ P x.fields

section Run

variable {α β ε κ σ : Type} {s t : Shape}

def elements (unpack : Unpacker → Option (ε × Unpacker)) : ℕ → Unpacker → List ε
  | 0, _ => []
  | n + 1, u =>
      match unpack u with
      | some (elem, u) => elem :: elements unpack n u
      | none => []

theorem unpackMany_elements {unpack : Unpacker → Option (ε × Unpacker)}
    {f : Unpacker → Unpacker} (h : ∀ u, ∃ x, unpack u = some (x, f u)) (n : ℕ) (u : Unpacker) :
    (elements unpack n u).length = n ∧ ∀ (σ : Type) (store : σ → ε → σ) (init : σ),
      unpackMany unpack store n init u =
        some ((elements unpack n u).foldl store init, Nat.iterate f n u) := by
  induction n generalizing u with
  | zero => exact ⟨rfl, fun _ _ _ => rfl⟩
  | succ n ih =>
    obtain ⟨x, hx⟩ := h u
    obtain ⟨hlen, hmany⟩ := ih (f u)
    have hcons : elements unpack (n + 1) u = x :: elements unpack n (f u) := by
      simp only [elements, hx]
    rw [hcons]
    constructor
    · rw [List.length_cons, hlen]
    · intro σ store init
      rw [unpackMany, hx]
      exact hmany σ store (store init x)

theorem accumulate_snd {w : ℕ} (k : ℕ) (x y : BitVec w) (u : Unpacker) :
    (accumulate k x u).2 = (accumulate k y u).2 := by
  induction k generalizing x y u with
  | zero => rfl
  | succ k ih => exact ih _ _ _

theorem unpackUint_snd (w : Width) (x y : BitVec w.bits) (u : Unpacker) :
    (unpackUint w x u).2 = (unpackUint w y u).2 := by
  cases w with
  | w8 => rfl
  | w16 =>
    change (unpackUint16 x u).2 = (unpackUint16 y u).2
    simp only [unpackUint16]
    split
    · exact accumulate_snd 2 x y _
    · rfl
  | w32 =>
    change (unpackUint32 x u).2 = (unpackUint32 y u).2
    simp only [unpackUint32]
    split
    · exact accumulate_snd 4 x y _
    split
    · exact accumulate_snd 2 x y _
    · rfl
  | w64 =>
    change (unpackUint64 x u).2 = (unpackUint64 y u).2
    simp only [unpackUint64]
    split
    · exact accumulate_snd 8 x y _
    split
    · exact congrArg advance (accumulate_snd 4 x y _)
    split
    · exact accumulate_snd 2 x y _
    · rfl

theorem takeBytes_snd (size : ℕ) (x y : List Byte) (u : Unpacker) :
    (takeBytes size x u).2 = (takeBytes size y u).2 := by
  simp only [takeBytes]
  split
  · rfl
  · rfl

theorem unpackEntry_run {k : Codec κ} {v : Codec β}
    (hk : ∀ x u, ∃ y, k.unpack x u = some (y, s.run u))
    (hv : ∀ x u, ∃ y, v.unpack x u = some (y, t.run u)) (u : Unpacker) :
    ∃ e, Codec.unpackEntry k v u = some (e, t.run (s.run u)) := by
  obtain ⟨key, hkey⟩ := hk k.init u
  obtain ⟨value, hvalue⟩ := hv v.init (s.run u)
  refine ⟨⟨key, value⟩, ?_⟩
  rw [Codec.unpackEntry, hkey]
  simp only [Option.bind_eq_bind, Option.bind_some, hvalue]

section Stored

variable [DecidableEq κ]

def insertAll (l : List ((_ : κ) × β)) (m : Finmap fun _ : κ => β) : Finmap fun _ : κ => β :=
  l.foldl (fun m e => m.insert e.1 e.2) m

theorem unpackArray_elements {c : Codec α} (hc : ∀ x u, ∃ y, c.unpack x u = some (y, s.run u))
    (array : List α) (u : Unpacker) :
    c.unpackArray array u = some (array ++ elements (c.unpack c.init)
      (unpackSize .array u).1.toNat (unpackSize .array u).2, (Shape.array s).run u) := by
  have h := (unpackMany_elements (hc c.init) (unpackSize .array u).1.toNat
    (unpackSize .array u).2).2 _ (fun array val => array ++ [val]) array
  rw [foldl_append_singleton] at h
  exact h

theorem unpackMap_elements {k : Codec κ} {v : Codec β}
    (hk : ∀ x u, ∃ y, k.unpack x u = some (y, s.run u))
    (hv : ∀ x u, ∃ y, v.unpack x u = some (y, t.run u)) (map : Finmap fun _ : κ => β)
    (u : Unpacker) :
    Codec.unpackMap k v map u = some (insertAll (elements (Codec.unpackEntry k v)
      (unpackSize .map u).1.toNat (unpackSize .map u).2) map, (Shape.map s t).run u) := by
  have h := unpackMany_elements (unpackEntry_run hk hv) (unpackSize .map u).1.toNat
    (unpackSize .map u).2
  exact h.2 _ (fun (map : Finmap fun _ : κ => β) elem => map.insert elem.1 elem.2) map

end Stored

/-- Unpacking into any variable moves the decoder as the shape says. -/
theorem unpack_run {c : Codec α} {P : α → Prop} (h : Describes s c P) (x : α) (u : Unpacker) :
    ∃ y, c.unpack x u = some (y, s.run u) := by
  induction h generalizing u with
  | nullptr => exact ⟨x, rfl⟩
  | bool => exact ⟨_, rfl⟩
  | int w => exact ⟨(unpackInt w 0 u).1, by cases w <;> rfl⟩
  | uint w =>
    exact ⟨(unpackUint w x u).1, congrArg some (Prod.ext rfl (unpackUint_snd w x 0 u))⟩
  | string =>
    exact ⟨(unpackString x u).1, congrArg some (Prod.ext rfl (takeBytes_snd _ x [] _))⟩
  | bytes =>
    exact ⟨(unpackBytes x u).1, congrArg some (Prod.ext rfl (takeBytes_snd _ x [] _))⟩
  | array _ ih => exact ⟨_, unpackArray_elements ih x u⟩
  | map _ _ _ ihk ihv => exact ⟨_, unpackMap_elements ihk ihv x u⟩
  | tupleNil => exact ⟨x, rfl⟩
  | @tupleCons _ _ s _ _ _ _ _ _ _ ih ihs =>
    obtain ⟨y, hy⟩ := ih x.1 u
    obtain ⟨z, hz⟩ := ihs x.2 (s.run u)
    refine ⟨(y, z), ?_⟩
    simp only [Codec.tupleCons, hy, Option.bind_eq_bind, Option.bind_some, hz]
    rfl
  | object _ ih =>
    obtain ⟨y, hy⟩ := ih x.fields (of (unpackBytes [] u).1)
    refine ⟨⟨y⟩, ?_⟩
    simp only [Codec.object, hy, Option.bind_eq_bind, Option.bind_some]
    rfl

theorem reads_run {hard still : Prop} (hobj : s.objectFree = true) (hh : hard → s.soft = false)
    (hs : still → s.unsignedFree = true) : Reads hard still fun u => ((), s.run u) := by
  induction s with
  | nullptr => exact Reads.increment ()
  | bool => exact Reads.dataIncrement
  | int w => exact (Reads.unpackInt w 0).map fun _ => ()
  | uint w =>
    exact ((Reads.unpackUint w 0).map fun _ => ()).weaken (fun h => h)
      (by simpa [Shape.unsignedFree] using hs)
  | string =>
    exact ((Reads.unpackString []).map fun _ => ()).weaken (by simpa [Shape.soft] using hh)
      (fun h => h)
  | bytes =>
    exact ((Reads.unpackBytes []).map fun _ => ()).weaken (by simpa [Shape.soft] using hh)
      (fun h => h)
  | array s ih =>
    exact (Reads.unpackSize .array).bind (g := fun n u => ((), Nat.iterate s.run n.toNat u))
      fun n => (ih hobj hh hs).iterate n.toNat
  | map k v ihk ihv =>
    simp only [Shape.objectFree, Shape.soft, Shape.unsignedFree, Bool.and_eq_true,
      Bool.or_eq_false_iff] at hobj hh hs
    have hentry : Reads hard still fun u => ((), v.run (k.run u)) :=
      (ihk hobj.1 (fun h => (hh h).1) (fun h => (hs h).1)).bind (g := fun _ u => ((), v.run u))
        fun _ => ihv hobj.2 (fun h => (hh h).2) (fun h => (hs h).2)
    exact (Reads.unpackSize .map).bind
      (g := fun n u => ((), Nat.iterate (fun u => v.run (k.run u)) n.toNat u))
      fun n => hentry.iterate n.toNat
  | tupleNil => exact Reads.pure ()
  | tupleCons s t ihs iht =>
    simp only [Shape.objectFree, Shape.soft, Shape.unsignedFree, Bool.and_eq_true,
      Bool.or_eq_false_iff] at hobj hh hs
    exact (ihs hobj.1 (fun h => (hh h).1) (fun h => (hs h).1)).bind
      (g := fun _ u => ((), t.run u))
      fun _ => iht hobj.2 (fun h => (hh h).2) (fun h => (hs h).2)
  | object s => simp [Shape.objectFree] at hobj

end Run

end Plain.Rpc
