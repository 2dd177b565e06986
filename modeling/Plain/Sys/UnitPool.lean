import Mathlib.Algebra.Group.Nat.Defs
import Mathlib.Data.Multiset.AddSub
import Plain.Foundation.Machine
import Plain.Foundation.Pool

/-! # The unit pool of shared memory

The live objects of a `UnitPool` are the slots below its position. Deleting one copies
the last live slot over it, header included, so the moved object keeps the id of the
slot it came from. The ids stay in step with the slots as long as only the last object
is ever deleted and the positions fit the signed ids.
-/

namespace Plain.Sys

def idInvalid : BitVec 32 := -1

/-- One object: of its header the key and the id, and the rest of its bytes as `data`. -/
structure Slot (α : Type*) where
  key : BitVec 32
  poolId : BitVec 32
  data : α
  deriving Repr, DecidableEq

/-- An initialised pool with one slot for each of its `size_` objects. -/
structure UnitPool (α : Type*) where
  key : BitVec 32
  slots : List (Slot α)
  position : BitVec 32
  deriving Repr, DecidableEq

namespace UnitPool

variable {α : Type*}

/-- The pool after `init`: the memory may hold anything. -/
def init (key : BitVec 32) (slots : List (Slot α)) : UnitPool α := ⟨key, slots, 0⟩

/-- `new_obj`, which answers the slot of the object. -/
def newObj (s : UnitPool α) : UnitPool α × Option ℕ :=
  match s.slots[s.position.toNat]? with
  | none => (s, none)
  | some obj =>
      ({ s with
          slots := s.slots.set s.position.toNat { obj with poolId := s.position, key := s.key }
          position := s.position + 1 }, some s.position.toNat)

def copySlot (slots : List (Slot α)) (target source : ℕ) : List (Slot α) :=
  match slots[source]? with
  | none => slots
  | some obj => slots.set target obj

def setPoolId (slots : List (Slot α)) (index : ℕ) (id : BitVec 32) : List (Slot α) :=
  match slots[index]? with
  | none => slots
  | some obj => slots.set index { obj with poolId := id }

/-- `delete_obj` of the object in slot `index`; there is no object outside the slots. -/
def deleteObj (s : UnitPool α) (index : ℕ) : UnitPool α :=
  match s.slots[index]? with
  | none => s
  | some obj =>
      if s.position = 0 then s
      else
        let deleteIndex := obj.poolId.toNat
        let position := s.position - 1
        if position = 0 then { s with position := position }
        else { s with
          slots := setPoolId (copySlot s.slots deleteIndex position.toNat) position.toNat idInvalid
          position := position }

def store (s : UnitPool α) (index : ℕ) (data : α) : UnitPool α :=
  match s.slots[index]? with
  | none => s
  | some obj => { s with slots := s.slots.set index { obj with data := data } }

inductive Op (α : Type*) where
  | newObj
  | deleteObj (index : ℕ)
  | store (index : ℕ) (data : α)
  deriving Repr, DecidableEq

def step (s : UnitPool α) : Op α → UnitPool α × Option ℕ
  | .newObj => s.newObj
  | .deleteObj index => (s.deleteObj index, none)
  | .store index data => (s.store index data, none)

def machine (α : Type*) : Machine (UnitPool α) (Op α) (Option ℕ) := ⟨step⟩

def Live (s : UnitPool α) : Op α → Prop
  | .newObj => True
  | .deleteObj index => index < s.position.toNat
  | .store index _ => index < s.position.toNat

instance (s : UnitPool α) : (op : Op α) → Decidable (s.Live op)
  | .newObj => .isTrue trivial
  | .deleteObj _ | .store _ _ => inferInstanceAs (Decidable (_ < _))

/-- The data of the objects created and not deleted, kept beside the pool. -/
def created [DecidableEq α] (s : UnitPool α) (live : Multiset α) : Op α → Multiset α
  | .newObj =>
      match s.slots[s.position.toNat]? with
      | none => live
      | some obj => obj.data ::ₘ live
  | .deleteObj index =>
      match s.slots[index]? with
      | none => live
      | some obj => live.erase obj.data
  | .store index data =>
      match s.slots[index]? with
      | none => live
      | some obj => data ::ₘ live.erase obj.data

/-- The objects below the position have the ids of their slots and the data of the objects
created and not deleted. -/
structure InStep (s : UnitPool α) (live : Multiset α) : Prop where
  position_le : s.position.toNat ≤ s.slots.length
  ids : ∀ i < s.position.toNat, ∀ obj, s.slots[i]? = some obj → obj.poolId.toInt = i
  data : (((s.slots.take s.position.toNat).map Slot.data : List α) : Multiset α) = live

/-- The last object is deleted, and the id of a new one is not negative. -/
def KeepsIds (s : UnitPool α) : Op α → Prop
  | .newObj => s.position.toNat < s.slots.length → s.position.toNat < 2 ^ 31
  | .deleteObj index => index + 1 = s.position.toNat
  | .store _ _ => True

instance (s : UnitPool α) : (op : Op α) → Decidable (s.KeepsIds op)
  | .newObj => inferInstanceAs (Decidable (_ → _))
  | .deleteObj _ => inferInstanceAs (Decidable (_ = _))
  | .store _ _ => .isTrue trivial

section Bounds

variable {s : UnitPool α}

/-- The ids of the live objects, right or wrong, are slots of the pool. -/
structure Within (s : UnitPool α) : Prop where
  position_le : s.position.toNat ≤ s.slots.length
  ids_lt : ∀ obj ∈ s.slots.take s.position.toNat, obj.poolId.toNat < s.slots.length

theorem toNat_position_sub_one (hpos : 0 < s.position.toNat) :
    (s.position - 1).toNat = s.position.toNat - 1 :=
  BitVec.toNat_sub_of_le (BitVec.le_def.mpr hpos)

theorem within_newObj (h : Within s) : Within s.newObj.1 := by
  rcases hobj : s.slots[s.position.toNat]? with _ | obj
  · simpa only [newObj, hobj] using h
  · obtain ⟨hlt, -⟩ := List.getElem?_eq_some_iff.mp hobj
    have hpos : (s.position + 1).toNat ≤ s.position.toNat + 1 := by
      rw [BitVec.toNat_add]
      exact Nat.mod_le _ _
    simp only [newObj, hobj]
    refine ⟨by simp only [List.length_set]; omega, ?_⟩
    intro obj' hmem
    rw [List.length_set]
    have hmem' := (List.take_sublist_take_left hpos).mem hmem
    rw [List.take_add_one, List.take_set_of_le le_rfl, List.getElem?_set_self hlt,
      Option.toList_some, List.mem_append, List.mem_singleton] at hmem'
    rcases hmem' with hold | rfl
    · exact h.ids_lt obj' hold
    · exact hlt

@[simp] theorem length_copySlot (slots : List (Slot α)) (target source : ℕ) :
    (copySlot slots target source).length = slots.length := by
  rw [copySlot]
  split <;> simp

@[simp] theorem length_setPoolId (slots : List (Slot α)) (index : ℕ) (id : BitVec 32) :
    (setPoolId slots index id).length = slots.length := by
  rw [setPoolId]
  split <;> simp

theorem take_setPoolId (slots : List (Slot α)) (index : ℕ) (id : BitVec 32) :
    (setPoolId slots index id).take index = slots.take index := by
  rw [setPoolId]
  split
  · rfl
  · exact List.take_set_of_le le_rfl

theorem mem_take_copySlot {slots : List (Slot α)} {target source n : ℕ} {obj : Slot α}
    (h : obj ∈ (copySlot slots target source).take n) :
    obj ∈ slots.take n ∨ slots[source]? = some obj := by
  rw [copySlot] at h
  split at h
  · exact Or.inl h
  · rename_i moved hmoved
    rw [List.take_set] at h
    rcases List.mem_or_eq_of_mem_set h with hold | rfl
    · exact Or.inl hold
    · exact Or.inr hmoved

theorem within_deleteObj (h : Within s) (index : ℕ) : Within (s.deleteObj index) := by
  have hle := h.position_le
  rcases hobj : s.slots[index]? with _ | obj
  · simpa only [deleteObj, hobj] using h
  · by_cases hne : s.position = 0
    · simpa only [deleteObj, hobj, if_pos hne] using h
    have hpos : 0 < s.position.toNat :=
      Nat.pos_of_ne_zero fun h0 => hne (BitVec.eq_of_toNat_eq h0)
    have hp := toNat_position_sub_one hpos
    simp only [deleteObj, hobj, if_neg hne]
    split
    · refine ⟨by dsimp only; omega, fun obj' hmem => h.ids_lt obj' ?_⟩
      exact (List.take_sublist_take_left (by dsimp only; omega)).mem hmem
    · refine ⟨by simp only [length_setPoolId, length_copySlot]; omega, ?_⟩
      intro obj' hmem
      rw [length_setPoolId, length_copySlot]
      rw [take_setPoolId] at hmem
      -- the slots below the new position and the one copied down were live before
      apply h.ids_lt
      rcases mem_take_copySlot hmem with hold | hlast
      · exact (List.take_sublist_take_left (by dsimp only; omega)).mem hold
      · rw [List.mem_take_iff_getElem]
        obtain ⟨hlt, rfl⟩ := List.getElem?_eq_some_iff.mp hlast
        exact ⟨_, by omega, rfl⟩

theorem within_store (h : Within s) (index : ℕ) (data : α) : Within (s.store index data) := by
  rw [store]
  split
  · exact h
  · rename_i obj hobj
    refine ⟨by simpa using h.position_le, ?_⟩
    intro obj' hmem
    rw [List.length_set]
    rcases Nat.lt_or_ge index s.position.toNat with hlive | hdead
    · rw [List.take_set] at hmem
      rcases List.mem_or_eq_of_mem_set hmem with hold | rfl
      · exact h.ids_lt obj' hold
      · exact h.ids_lt obj (List.mem_of_getElem? ((List.getElem?_take_of_lt hlive).trans hobj))
    · rw [List.take_set_of_le hdead] at hmem
      exact h.ids_lt obj' hmem

/-- In every run, whatever is deleted, `delete_obj` copies between slots of the pool. -/
theorem ids_within_slots (key : BitVec 32) (slots : List (Slot α)) (ops : List (Op α)) :
    Within ((machine α).run (init key slots) ops).1 := by
  refine (machine α).run_keeps (fun s op h => ?_) ⟨Nat.zero_le _, by simp [init]⟩ ops
  cases op with
  | newObj => exact within_newObj h
  | deleteObj index => exact within_deleteObj h index
  | store index data => exact within_store h index data

end Bounds

section Steps

variable {s : UnitPool α} {live : Multiset α}

theorem inStep_init (key : BitVec 32) (slots : List (Slot α)) : InStep (init key slots) 0 :=
  ⟨Nat.zero_le _, fun _ hi => absurd hi (Nat.not_lt_zero _), rfl⟩

theorem InStep.exists_live (h : InStep s live) {i : ℕ} (hi : i < s.position.toNat) :
    ∃ obj, s.slots[i]? = some obj :=
  ⟨_, List.getElem?_eq_getElem (lt_of_lt_of_le hi h.position_le)⟩

theorem InStep.position_le_pow (h : InStep s live) : s.position.toNat ≤ 2 ^ 31 := by
  by_contra hlt
  obtain ⟨obj, hobj⟩ := h.exists_live (i := 2 ^ 31) (by omega)
  have hid := h.ids (2 ^ 31) (by omega) obj hobj
  have := BitVec.toInt_lt (x := obj.poolId)
  omega

theorem toNat_poolId (h : InStep s live) {i : ℕ} (hi : i < s.position.toNat) {obj : Slot α}
    (hobj : s.slots[i]? = some obj) : obj.poolId.toNat = i := by
  have hid := h.ids i hi obj hobj
  rw [BitVec.toInt_eq_toNat_cond] at hid
  split at hid
  · exact Int.ofNat.inj hid
  · have := obj.poolId.isLt
    omega

theorem deleteObj_last (h : InStep s live) {index : ℕ} (hi : index + 1 = s.position.toNat) :
    (s.deleteObj index).position = s.position - 1 ∧
      (s.deleteObj index).slots.take index = s.slots.take index := by
  obtain ⟨obj, hobj⟩ := h.exists_live (i := index) (by omega)
  obtain ⟨hlt, -⟩ := List.getElem?_eq_some_iff.mp hobj
  have hid := toNat_poolId h (by omega) hobj
  have hp : (s.position - 1).toNat = index := by
    rw [toNat_position_sub_one (by omega)]
    omega
  have hne : s.position ≠ 0 := by
    rintro h0
    simp [h0] at hi
  simp only [deleteObj, hobj, if_neg hne, hid, hp]
  split
  · exact ⟨rfl, rfl⟩
  · simp only [copySlot, setPoolId, hobj, List.getElem?_set_self hlt, List.set_set, true_and]
    exact List.take_set_of_le le_rfl

theorem deleteObj_moves (h : InStep s live) {index : ℕ} (hi : index + 1 < s.position.toNat) :
    (s.deleteObj index).position = s.position - 1 ∧
      (s.deleteObj index).slots[index]? = s.slots[s.position.toNat - 1]? := by
  obtain ⟨obj, hobj⟩ := h.exists_live (i := index) (by omega)
  obtain ⟨last, hlast⟩ := h.exists_live (i := s.position.toNat - 1) (by omega)
  have hid := toNat_poolId h (by omega) hobj
  have hp := toNat_position_sub_one (s := s) (by omega)
  have hne : s.position ≠ 0 := by
    rintro h0
    simp [h0] at hi
  have hne' : s.position - 1 ≠ 0 := by
    intro h0
    have hzero : (s.position - 1).toNat = 0 := congrArg BitVec.toNat h0
    omega
  have hindex : s.position.toNat - 1 ≠ index := by omega
  simp only [deleteObj, hobj, if_neg hne, if_neg hne', hid, hp, copySlot, hlast, setPoolId,
    List.getElem?_set_ne hindex.symm, List.getElem?_set_ne hindex, true_and]
  exact List.getElem?_set_self (List.getElem?_eq_some_iff.mp hobj).1

variable [DecidableEq α]

theorem newObj_inStep (h : InStep s live) {obj : Slot α}
    (hobj : s.slots[s.position.toNat]? = some obj) (hid : s.position.toNat < 2 ^ 31) :
    InStep s.newObj.1 (created s live .newObj) := by
  obtain ⟨hlt, -⟩ := List.getElem?_eq_some_iff.mp hobj
  have hpos : (s.position + 1).toNat = s.position.toNat + 1 := by
    rw [BitVec.toNat_add]
    simp
    omega
  simp only [newObj, created, hobj]
  refine ⟨by simp only [hpos, List.length_set]; omega, ?_, ?_⟩
  · intro i hi obj' hobj'
    simp only [hpos] at hi hobj'
    rcases Nat.lt_or_ge i s.position.toNat with hi' | hi'
    · rw [List.getElem?_set_ne (by omega)] at hobj'
      exact h.ids i hi' obj' hobj'
    · obtain rfl : i = s.position.toNat := by omega
      rw [List.getElem?_set_self hlt, Option.some.injEq] at hobj'
      rw [← hobj']
      exact BitVec.toInt_eq_toNat_of_lt (x := s.position) (by omega)
  · simp only [hpos]
    rw [List.take_add_one, List.take_set_of_le le_rfl, List.getElem?_set_self hlt,
      Option.toList_some, List.map_append, ← h.data]
    exact Multiset.coe_eq_coe.mpr (List.perm_append_singleton _ _)

theorem newObj_inStep_iff (h : InStep s live) :
    InStep s.newObj.1 (created s live .newObj) ↔ s.KeepsIds .newObj := by
  rcases hobj : s.slots[s.position.toNat]? with _ | obj
  · simp only [newObj, created, hobj, KeepsIds]
    exact iff_of_true h fun hlt => absurd (List.getElem?_eq_none_iff.mp hobj) (by omega)
  · obtain ⟨hlt, -⟩ := List.getElem?_eq_some_iff.mp hobj
    constructor
    · intro h' _
      have hle := h.position_le_pow
      have hle' := h'.position_le_pow
      simp only [newObj, hobj] at hle'
      rw [BitVec.toNat_add] at hle'
      simp at hle'
      omega
    · intro hid
      exact newObj_inStep h hobj (hid hlt)

theorem coe_set {l : List α} {k : ℕ} {a : α} (h : l[k]? = some a) (b : α) :
    ((l.set k b : List α) : Multiset α) = b ::ₘ (l : Multiset α).erase a := by
  have hperm := Multiset.coe_eq_coe.mpr (Pool.cons_set_perm h b)
  have hmem : a ∈ (l : Multiset α) := List.mem_of_getElem? h
  rw [← Multiset.cons_coe, ← Multiset.cons_coe] at hperm
  rw [← Multiset.erase_cons_tail_of_mem hmem, ← hperm, Multiset.erase_cons_head]

theorem store_inStep (h : InStep s live) {index : ℕ} (hi : index < s.position.toNat) (data : α) :
    InStep (s.store index data) (created s live (.store index data)) := by
  obtain ⟨obj, hobj⟩ := h.exists_live hi
  simp only [store, created, hobj]
  refine ⟨by simpa using h.position_le, ?_, ?_⟩
  · intro i hi' obj' hobj'
    by_cases hindex : index = i
    · subst hindex
      rw [List.getElem?_set_self (List.getElem?_eq_some_iff.mp hobj).1, Option.some.injEq] at hobj'
      have hid := h.ids index hi _ hobj
      rwa [← hobj']
    · rw [List.getElem?_set_ne hindex] at hobj'
      exact h.ids i hi' obj' hobj'
  · have hdata : ((s.slots.take s.position.toNat).map Slot.data)[index]? = some obj.data := by
      rw [List.getElem?_map, List.getElem?_take_of_lt hi, hobj, Option.map_some]
    rw [List.take_set, List.map_set, coe_set hdata, h.data]

theorem deleteObj_last_inStep (h : InStep s live) {index : ℕ}
    (hlast : index + 1 = s.position.toNat) :
    InStep (s.deleteObj index) (created s live (.deleteObj index)) := by
  obtain ⟨hposition, htake⟩ := deleteObj_last h hlast
  obtain ⟨obj, hobj⟩ := h.exists_live (i := index) (by omega)
  have hindex : (s.position - 1).toNat = index := by
    rw [toNat_position_sub_one (by omega)]
    omega
  refine ⟨?_, ?_, ?_⟩
  · have hle := h.position_le
    have hlen := congrArg List.length htake
    simp only [List.length_take] at hlen
    rw [hposition, hindex]
    omega
  · intro i hi' obj' hobj'
    rw [hposition, hindex] at hi'
    rw [← List.getElem?_take_of_lt hi', htake, List.getElem?_take_of_lt hi'] at hobj'
    exact h.ids i (by omega) obj' hobj'
  · have hdata : obj.data ::ₘ (((s.slots.take index).map Slot.data : List α) : Multiset α) =
        live := by
      rw [← h.data, ← hlast, List.take_add_one, hobj, Option.toList_some, List.map_append]
      exact (Multiset.coe_eq_coe.mpr (List.perm_append_singleton _ _)).symm
    simp only [created, hobj]
    rw [hposition, hindex, htake, ← hdata, Multiset.erase_cons_head]

theorem deleteObj_inStep_iff (h : InStep s live) {index : ℕ} (hi : index < s.position.toNat) :
    InStep (s.deleteObj index) (created s live (.deleteObj index)) ↔
      s.KeepsIds (.deleteObj index) := by
  rw [KeepsIds]
  constructor
  · intro h'
    by_contra hne
    have hlt : index + 1 < s.position.toNat := by omega
    obtain ⟨hposition, hmoved⟩ := deleteObj_moves h hlt
    obtain ⟨last, hlast⟩ := h.exists_live (i := s.position.toNat - 1) (by omega)
    have hid := h.ids _ (by omega) last hlast
    have hp := toNat_position_sub_one (s := s) (by omega)
    have hid' := h'.ids index (by rw [hposition, hp]; omega) last (hmoved.trans hlast)
    omega
  · exact deleteObj_last_inStep h

/-- One operation keeps the pool in step exactly when it keeps the ids. -/
theorem step_inStep_iff (op : Op α) (hlive : s.Live op) (h : InStep s live) :
    InStep ((machine α).step s op).1 (created s live op) ↔ s.KeepsIds op := by
  cases op with
  | newObj => exact newObj_inStep_iff h
  | deleteObj index => exact deleteObj_inStep_iff h hlive
  | store index data => exact iff_of_true (store_inStep h hlive data) trivial

end Steps

/-- Ids, slots and data agree in every state of a run from a new pool exactly when each object
deleted is the one in the last live slot and no object is created beyond the signed ids. Wrong
ids too are those of slots of the pool. -/
theorem unitPool_inStep_iff [DecidableEq α] (key : BitVec 32) (slots : List (Slot α))
    (ops : List (Op α)) (hlive : (machine α).Along Live (init key slots) ops) :
    Within ((machine α).run (init key slots) ops).1 ∧
      ((∀ n, let r := (((machine α).noting created).run (init key slots, 0) (ops.take n)).1
        InStep r.1 r.2) ↔ (machine α).Along KeepsIds (init key slots) ops) := by
  refine ⟨ids_within_slots key slots ops, ?_⟩
  rw [← Machine.along_noting (machine α) created (s := (init key slots, 0))] at hlive ⊢
  exact Machine.run_always_iff_of_invariant _ (I := fun _ => True)
    (P := fun r : UnitPool α × Multiset α => InStep r.1 r.2) (fun _ _ _ _ => trivial)
    (fun r op _ hop h => step_inStep_iff op hop h) trivial (inStep_init key slots) hlive

/-- A pool of two objects used as a stack. -/
theorem unitPool_inStep_iff_stack :
    let ops : List (Op ℕ) := [.newObj, .store 0 5, .newObj, .newObj, .deleteObj 1]
    let r := (((machine ℕ).noting created).run (init 7 [⟨0, 0, 0⟩, ⟨0, 0, 0⟩], 0) ops).1
    r.2 = {5} ∧ InStep r.1 r.2 :=
  ⟨by decide, (unitPool_inStep_iff 7 [⟨0, 0, 0⟩, ⟨0, 0, 0⟩]
    [.newObj, .store 0 5, .newObj, .newObj, .deleteObj 1] (by decide)).2.mpr (by decide) 5⟩

/-- Three objects, of which the first is deleted: the last one now lies in the first slot under
the id of the third. Deleting it there leaves it in place and loses the second one. -/
theorem unitPool_moves_id :
    let ops : List (Op ℕ) := [.newObj, .store 0 10, .newObj, .store 1 11, .newObj, .store 2 12,
      .deleteObj 0, .deleteObj 0]
    let s := init 7 [⟨0, 0, 0⟩, ⟨0, 0, 0⟩, ⟨0, 0, 0⟩]
    (machine ℕ).Along Live s ops ∧
      ((machine ℕ).run s (ops.take 7)).1.slots[0]? = some ⟨7, 2, 12⟩ ∧
      ((machine ℕ).run s ops).1.slots.take ((machine ℕ).run s ops).1.position.toNat =
        [⟨7, 2, 12⟩] ∧
      (((machine ℕ).noting created).run (s, 0) ops).1.2 = {11} := by decide

end UnitPool

end Plain.Sys
