import Mathlib.Data.Finset.Max
import Mathlib.Data.Int.ConditionallyCompleteOrder
import Mathlib.Data.Int.Interval
import Mathlib.Order.ConditionallyCompleteLattice.Basic
import Plain.Foundation.Machine

/-! # The connection registry of a manager

The manager hands out the smallest free id or the next one, and takes an id back when
its connection is removed. Ids are never handed out twice, whatever is removed. The
size counter and the disconnect callback are right as long as only valid connections
are removed: `remove` does not look at the valid ids.
-/

namespace Plain.Manager

def kInvalidId : ℤ := -1

def toSize (id : ℤ) : ℕ := (id % 2 ^ 64).toNat

/-- The counts of a setting, with what the constructor of the manager asserts. -/
structure Setting where
  defaultCount : BitVec 32
  maxCount : BitVec 32
  default_le : defaultCount ≤ maxCount

structure Conn where
  id : ℤ
  keepAlive : Bool
  deriving Repr, DecidableEq, Inhabited

def Conn.new : Conn := ⟨kInvalidId, false⟩

structure ConnectionInfo where
  list : List Conn
  ids : Finset ℤ
  freeIds : Finset ℤ
  size : ℕ
  maxId : ℤ
  deriving DecidableEq

structure Disconnect where
  id : ℤ
  keepAlive : Bool
  deriving Repr, DecidableEq

namespace ConnectionInfo

def initConnections (count : BitVec 32) : ConnectionInfo :=
  ⟨List.replicate count.toNat Conn.new, ∅, ∅, 0, 0⟩

def isFull (setting : Setting) (info : ConnectionInfo) : Bool :=
  info.freeIds = ∅ ∧ info.maxId ≠ kInvalidId ∧ setting.maxCount.toInt ≤ info.maxId

/-- The smallest free id, or the next one together with its place in the list. -/
def takeId (info : ConnectionInfo) : ℤ × ConnectionInfo :=
  if h : info.freeIds.Nonempty then
    (info.freeIds.min' h, { info with freeIds := info.freeIds.erase (info.freeIds.min' h) })
  else
    let id := info.maxId + 1
    (id, { info with
      maxId := id
      list := if toSize id > info.list.length then info.list ++ [Conn.new] else info.list })

def newConn (setting : Setting) (info : ConnectionInfo) : Option ℤ × ConnectionInfo :=
  if info.isFull setting then (none, info)
  else
    let (id, info) := info.takeId
    if id = kInvalidId then (none, info)
    else (some id, { info with
      list := info.list.modify (id - 1).toNat fun conn => { conn with id := id }
      size := info.size + 1
      ids := insert id info.ids })

def remove (info : ConnectionInfo) (connId : ℤ) (noEvent : Bool) :
    Option Disconnect × ConnectionInfo :=
  if connId ≤ 0 ∨ info.maxId < connId then (none, info)
  else
    let conn := info.list.getD (connId - 1).toNat default
    let event := if noEvent then none else some ⟨connId, conn.keepAlive⟩
    if conn.keepAlive then (event, info)
    else
      -- whether the id was valid is not asked
      (event, { info with
        freeIds := insert connId info.freeIds
        size := if info.size > 0 then info.size - 1 else info.size
        ids := info.ids.erase connId })

def setKeepAlive (info : ConnectionInfo) (index : ℕ) (flag : Bool) : ConnectionInfo :=
  { info with list := info.list.modify index fun conn => { conn with keepAlive := flag } }

end ConnectionInfo

inductive RegistryOp where
  | newConn
  | remove (connId : ℤ) (noEvent : Bool)
  | setKeepAlive (index : ℕ) (flag : Bool)
  deriving Repr, DecidableEq

inductive RegistryAnswer where
  | connection (id : Option ℤ)
  | disconnect (event : Option Disconnect)
  | done
  deriving Repr, DecidableEq

def registryStep (setting : Setting) (info : ConnectionInfo) :
    RegistryOp → ConnectionInfo × RegistryAnswer
  | .newConn => ((info.newConn setting).2, .connection (info.newConn setting).1)
  | .remove connId noEvent =>
      ((info.remove connId noEvent).2, .disconnect (info.remove connId noEvent).1)
  | .setKeepAlive index flag => (info.setKeepAlive index flag, .done)

def registry (setting : Setting) : Machine ConnectionInfo RegistryOp RegistryAnswer :=
  ⟨registryStep setting⟩

namespace ConnectionInfo

/-- The ids up to `maxId` are valid or free, and each of them has its place in the list. -/
structure Allocated (setting : Setting) (info : ConnectionInfo) : Prop where
  disjoint : Disjoint info.ids info.freeIds
  union_eq : info.ids ∪ info.freeIds = Finset.Icc 1 info.maxId
  max_nonneg : 0 ≤ info.maxId
  max_le : info.maxId ≤ max 0 setting.maxCount.toInt
  le_length : info.maxId ≤ info.list.length

variable {setting : Setting} {info : ConnectionInfo}

theorem takeId_next (h : ¬ info.freeIds.Nonempty) :
    info.takeId = (info.maxId + 1, { info with
      maxId := info.maxId + 1
      list := if toSize (info.maxId + 1) > info.list.length
        then info.list ++ [Conn.new] else info.list }) := dif_neg h

theorem initConnections_allocated :
    (initConnections setting.defaultCount).Allocated setting where
  disjoint := Finset.disjoint_empty_left _
  union_eq := rfl
  max_nonneg := le_rfl
  max_le := le_max_left _ _
  le_length := Int.natCast_nonneg _

namespace Allocated

theorem mem_iff (h : info.Allocated setting) (id : ℤ) :
    (id ∈ info.ids ∨ id ∈ info.freeIds) ↔ 1 ≤ id ∧ id ≤ info.maxId := by
  rw [← Finset.mem_union, h.union_eq, Finset.mem_Icc]

theorem card_add (h : info.Allocated setting) :
    info.ids.card + info.freeIds.card = info.maxId.toNat := by
  rw [← Finset.card_union_of_disjoint h.disjoint, h.union_eq, Int.card_Icc]
  congr 1
  omega

theorem isFull_iff (h : info.Allocated setting) (hmax : 0 ≤ setting.maxCount.toInt) :
    info.isFull setting = true ↔ (info.ids.card : ℤ) = setting.maxCount.toInt := by
  have hcard := h.card_add
  have hnonneg := h.max_nonneg
  have hle := h.max_le
  rw [isFull, decide_eq_true_eq]
  constructor
  · rintro ⟨hfree, _, hmax⟩
    rw [hfree, Finset.card_empty] at hcard
    omega
  · intro hids
    have h0 : info.freeIds.card = 0 := by omega
    refine ⟨Finset.card_eq_zero.mp h0, ?_, by omega⟩
    rw [kInvalidId]
    omega

theorem not_isFull (hfull : info.isFull setting = false) (hfree : ¬ info.freeIds.Nonempty)
    (h : info.Allocated setting) : info.maxId < setting.maxCount.toInt := by
  rw [isFull, decide_eq_false_iff_not] at hfull
  by_contra hle
  refine hfull ⟨Finset.not_nonempty_iff_eq_empty.mp hfree, ?_, by omega⟩
  have := h.max_nonneg
  rw [kInvalidId]
  omega

theorem takeId_spec (h : info.Allocated setting) (hfull : info.isFull setting = false) :
    info.takeId.1 ∉ info.ids ∧ 1 ≤ info.takeId.1 ∧ info.takeId.2.ids = info.ids ∧
      info.takeId.2.size = info.size ∧
      Allocated setting { info.takeId.2 with ids := insert info.takeId.1 info.ids } := by
  by_cases hfree : info.freeIds.Nonempty
  · have hmem := info.freeIds.min'_mem hfree
    have hnot := Finset.disjoint_right.mp h.disjoint hmem
    unfold takeId
    rw [dif_pos hfree]
    refine ⟨hnot, ((h.mem_iff _).mp (Or.inr hmem)).1, rfl, rfl, ?_, ?_, h.max_nonneg, h.max_le,
      h.le_length⟩
    · rw [Finset.disjoint_insert_left]
      exact ⟨Finset.notMem_erase _ _, h.disjoint.mono_right (Finset.erase_subset _ _)⟩
    · rw [Finset.insert_union, ← Finset.union_insert, Finset.insert_erase hmem]
      exact h.union_eq
  · have hlt := not_isFull hfull hfree h
    have hnonneg := h.max_nonneg
    have hlen := h.le_length
    have hout : ¬ (info.maxId + 1 ∈ info.ids ∨ info.maxId + 1 ∈ info.freeIds) := by
      rw [h.mem_iff]
      omega
    rw [not_or] at hout
    rw [takeId_next hfree]
    refine ⟨hout.1, Int.le_add_of_nonneg_left hnonneg, rfl, rfl, ?_, ?_,
      Int.le_add_one hnonneg, le_max_of_le_right hlt, ?_⟩
    · rw [Finset.disjoint_insert_left]
      exact ⟨hout.2, h.disjoint⟩
    · ext id
      rw [Finset.insert_union, Finset.mem_insert, Finset.mem_union, h.mem_iff, Finset.mem_Icc]
      change id = info.maxId + 1 ∨ _ ↔ 1 ≤ id ∧ id ≤ info.maxId + 1
      omega
    · have hsize : toSize (info.maxId + 1) = (info.maxId + 1).toNat := by
        have := setting.maxCount.toInt_lt
        rw [toSize, Int.emod_eq_of_lt (by omega) (by omega)]
      change info.maxId + 1 ≤ (if toSize (info.maxId + 1) > info.list.length
        then info.list ++ [Conn.new] else info.list).length
      rw [hsize]
      split
      · rw [List.length_append, List.length_singleton]
        omega
      · omega

theorem newConn_spec (h : info.Allocated setting) :
    (info.isFull setting = true ∧ info.newConn setting = (none, info)) ∨
      info.isFull setting = false ∧ ∃ id ∉ info.ids, (info.newConn setting).1 = some id ∧
        (info.newConn setting).2.ids = insert id info.ids ∧
        (info.newConn setting).2.size = info.size + 1 ∧
        (info.newConn setting).2.Allocated setting := by
  cases hfull : info.isFull setting with
  | true => exact Or.inl ⟨rfl, by simp [newConn, hfull]⟩
  | false =>
    obtain ⟨hnot, hpos, hids, hsize, ha⟩ := h.takeId_spec hfull
    have hvalid : info.takeId.1 ≠ kInvalidId := by
      rw [kInvalidId]
      omega
    refine Or.inr ⟨rfl, info.takeId.1, hnot, ?_⟩
    simp only [newConn, hfull, Bool.false_eq_true, if_false, if_neg hvalid, hids, hsize,
      true_and]
    exact ⟨ha.disjoint, ha.union_eq, ha.max_nonneg, ha.max_le, by
      rw [List.length_modify]; exact ha.le_length⟩

theorem remove_allocated (h : info.Allocated setting) (connId : ℤ) (noEvent : Bool) :
    (info.remove connId noEvent).2.Allocated setting := by
  unfold remove
  split
  · exact h
  · rename_i hin
    dsimp only
    split
    · exact h
    · refine ⟨?_, ?_, h.max_nonneg, h.max_le, h.le_length⟩
      · rw [Finset.disjoint_insert_right]
        exact ⟨Finset.notMem_erase _ _, h.disjoint.mono_left (Finset.erase_subset _ _)⟩
      · ext id
        have hiff := h.mem_iff id
        simp only [Finset.mem_union, Finset.mem_erase, Finset.mem_insert, Finset.mem_Icc]
        by_cases he : id = connId
        · simp only [he, true_or, or_true, true_iff]
          omega
        · simpa [he] using hiff

theorem setKeepAlive_allocated (h : info.Allocated setting) (index : ℕ) (flag : Bool) :
    (info.setKeepAlive index flag).Allocated setting :=
  ⟨h.disjoint, h.union_eq, h.max_nonneg, h.max_le, by
    rw [setKeepAlive, List.length_modify]; exact h.le_length⟩

theorem step (h : info.Allocated setting) (op : RegistryOp) :
    (registryStep setting info op).1.Allocated setting := by
  cases op with
  | newConn =>
    rcases h.newConn_spec with ⟨_, he⟩ | ⟨_, _, _, _, _, _, ha⟩
    · simpa only [registryStep, he] using h
    · exact ha
  | remove connId noEvent => exact h.remove_allocated connId noEvent
  | setKeepAlive index flag => exact h.setKeepAlive_allocated index flag

end Allocated

end ConnectionInfo

open ConnectionInfo

variable {setting : Setting}

theorem run_allocated (ops : List RegistryOp) :
    ((registry setting).run (initConnections setting.defaultCount) ops).1.Allocated setting :=
  (registry setting).run_keeps (fun _ op ha => ha.step op) initConnections_allocated ops

/-- After every sequence of calls the valid and the free ids part the ids up to the greatest
one, which is within the limit and the list, and a new connection gets an id that is not
valid, unless as many are valid as the setting allows. -/
theorem ids_never_shared (h : setting.maxCount.toNat < 2 ^ 31) (ops : List RegistryOp) :
    let info := ((registry setting).run (initConnections setting.defaultCount) ops).1
    Disjoint info.ids info.freeIds ∧
      info.ids ∪ info.freeIds = Finset.Icc 1 info.maxId ∧
      info.maxId ≤ setting.maxCount.toNat ∧
      info.maxId ≤ info.list.length ∧
      (∀ id, (info.newConn setting).1 = some id →
        id ∉ info.ids ∧ (info.newConn setting).2.ids = insert id info.ids) ∧
      ((info.newConn setting).1 = none ↔ info.ids.card = setting.maxCount.toNat) := by
  intro info
  have ha : info.Allocated setting := run_allocated ops
  have hmax : setting.maxCount.toInt = setting.maxCount.toNat :=
    BitVec.toInt_eq_toNat_of_lt (by omega)
  have hfull := ha.isFull_iff (by omega)
  have hle := ha.max_le
  rw [hmax] at hfull hle
  refine ⟨ha.disjoint, ha.union_eq, by omega, ha.le_length, ?_⟩
  rcases ha.newConn_spec with ⟨hf, he⟩ | ⟨hf, id, hnot, hid, hids, _, _⟩
  · rw [he]
    exact ⟨by simp, by simpa using hfull.mp hf⟩
  · rw [hid, hids]
    refine ⟨by rintro _ ⟨⟩; exact ⟨hnot, rfl⟩, iff_of_false (by simp) fun hcard => ?_⟩
    rw [hfull.mpr (by rw [hcard])] at hf
    exact Bool.noConfusion hf

theorem ids_never_shared_two :
    let setting : Setting := ⟨1, 2, by decide⟩
    let info := ((registry setting).run (initConnections 1)
      [.newConn, .newConn, .remove 1 false, .remove 1 true]).1
    Disjoint info.ids info.freeIds ∧ info.ids ∪ info.freeIds = Finset.Icc 1 info.maxId ∧
      (info.newConn setting).1 = some 1 :=
  have h := @ids_never_shared ⟨1, 2, by decide⟩ (by decide)
    [.newConn, .newConn, .remove 1 false, .remove 1 true]
  ⟨h.1, h.2.1, by decide⟩

section Remove

def RemovesValid (info : ConnectionInfo) : RegistryOp → Prop
  | .remove connId _ => 1 ≤ connId → connId ≤ info.maxId →
      (info.list.getD (connId - 1).toNat default).keepAlive = false → connId ∈ info.ids
  | _ => True

instance (info : ConnectionInfo) : (op : RegistryOp) → Decidable (RemovesValid info op)
  | .remove _ _ => inferInstanceAs (Decidable (_ → _))
  | .newConn | .setKeepAlive _ _ => .isTrue trivial

/-- The callback fires for the connection `id`, which is not kept alive. -/
def RegistryAnswer.fires (id : ℤ) (answer : RegistryAnswer) : Bool :=
  answer = .disconnect (some ⟨id, false⟩)

/-- Removing a valid connection either changes nothing or frees its id. -/
theorem remove_spec {info : ConnectionInfo} {connId : ℤ} {noEvent : Bool}
    (h : RemovesValid info (.remove connId noEvent)) :
    ((info.remove connId noEvent).2 = info ∧
        ∀ id, (info.remove connId noEvent).1 ≠ some ⟨id, false⟩) ∨
      connId ∈ info.ids ∧ (info.remove connId noEvent).2.ids = info.ids.erase connId ∧
        (info.remove connId noEvent).2.size = info.size - 1 ∧
        ∀ id, (info.remove connId noEvent).1 = some ⟨id, false⟩ → id = connId := by
  by_cases hin : connId ≤ 0 ∨ info.maxId < connId
  · left
    simp [remove, hin]
  · cases hk : (info.list.getD (connId - 1).toNat default).keepAlive with
    | true =>
      left
      simp only [remove, if_neg hin, hk, if_true, true_and]
      intro id
      cases noEvent <;> simp
    | false =>
      right
      refine ⟨h (by omega) (by omega) hk, ?_⟩
      simp only [remove, if_neg hin, hk, Bool.false_eq_true, if_false, true_and]
      refine ⟨by split <;> omega, fun id => ?_⟩
      cases noEvent <;> simp +contextual

theorem newConn_ids (info : ConnectionInfo) :
    (info.newConn setting).2.ids = info.ids ∨
      ∃ id, (info.newConn setting).1 = some id ∧
        (info.newConn setting).2.ids = insert id info.ids := by
  have hids : info.takeId.2.ids = info.ids := by
    unfold takeId
    split <;> rfl
  unfold newConn
  split
  · exact Or.inl rfl
  · dsimp only
    split
    · exact Or.inl hids
    · exact Or.inr ⟨info.takeId.1, rfl, by rw [hids]⟩

theorem size_step {info : ConnectionInfo} (ha : info.Allocated setting)
    (hs : info.size = info.ids.card) {op : RegistryOp} (hop : RemovesValid info op) :
    (registryStep setting info op).1.size = (registryStep setting info op).1.ids.card := by
  cases op with
  | newConn =>
    rcases ha.newConn_spec with ⟨_, he⟩ | ⟨_, id, hnot, _, hids, hsize, _⟩
    · simpa only [registryStep, he] using hs
    · simp only [registryStep, hids, hsize, Finset.card_insert_of_notMem hnot, hs]
  | remove connId noEvent =>
    rcases remove_spec hop with ⟨he, _⟩ | ⟨hmem, hids, hsize, _⟩
    · simpa only [registryStep, he] using hs
    · simp only [registryStep, hids, hsize, Finset.card_erase_of_mem hmem, hs]
  | setKeepAlive index flag => exact hs

theorem removed_step {info : ConnectionInfo} {op : RegistryOp} {id : ℤ}
    (hop : RemovesValid info op)
    (hnew : (registryStep setting info op).2 ≠ .connection (some id)) (hid : id ∉ info.ids) :
    id ∉ (registryStep setting info op).1.ids ∧
      (registryStep setting info op).2.fires id = false := by
  cases op with
  | newConn =>
    refine ⟨?_, by simp [registryStep, RegistryAnswer.fires]⟩
    rcases @newConn_ids setting info with he | ⟨id', he, hids⟩
    · simpa only [registryStep, he] using hid
    · simp only [registryStep, he, ne_eq, RegistryAnswer.connection.injEq,
        Option.some.injEq] at hnew
      simp only [registryStep, hids, Finset.mem_insert, not_or]
      exact ⟨fun h => hnew h.symm, hid⟩
  | remove connId noEvent =>
    rcases remove_spec hop with ⟨he, hev⟩ | ⟨hmem, hids, _, hev⟩
    · exact ⟨by simpa only [registryStep, he] using hid,
        by simpa [registryStep, RegistryAnswer.fires] using hev id⟩
    · refine ⟨by simp [registryStep, hids, hid], ?_⟩
      have hne : id ≠ connId := fun h => hid (h ▸ hmem)
      simpa [registryStep, RegistryAnswer.fires] using fun h => hne (hev id h)
  | setKeepAlive index flag => exact ⟨hid, by simp [registryStep, RegistryAnswer.fires]⟩

/-- The callback fires for a connection whose id is then free. -/
theorem fires_step {info : ConnectionInfo} {op : RegistryOp} {id : ℤ}
    (hop : RemovesValid info op) (hf : (registryStep setting info op).2.fires id = true) :
    id ∉ (registryStep setting info op).1.ids := by
  cases op with
  | newConn => simp [registryStep, RegistryAnswer.fires] at hf
  | remove connId noEvent =>
    simp only [registryStep, RegistryAnswer.fires, decide_eq_true_eq,
      RegistryAnswer.disconnect.injEq] at hf
    rcases remove_spec hop with ⟨_, hev⟩ | ⟨_, hids, _, hev⟩
    · exact absurd hf (hev id)
    · simp [registryStep, hids, hev id hf]
  | setKeepAlive index flag => simp [registryStep, RegistryAnswer.fires] at hf

/-- In every run that removes valid connections only, the size is the number of valid ids,
and the callback fires at most once for an id between two times it is handed out. -/
theorem removes_valid_once (ops : List RegistryOp)
    (hok : (registry setting).Along RemovesValid
      (initConnections setting.defaultCount) ops) :
    let r := (registry setting).run (initConnections setting.defaultCount) ops
    r.1.size = r.1.ids.card ∧
      ∀ (id : ℤ) (pre mid post : List RegistryAnswer),
        r.2 = pre ++ .connection (some id) :: mid ++ .connection (some id) :: post →
        .connection (some id) ∉ mid → mid.countP (RegistryAnswer.fires id) ≤ 1 := by
  constructor
  · exact ((registry setting).run_invariant
      (P := fun info => info.Allocated setting ∧ info.size = info.ids.card)
      (fun _ op h hop => ⟨h.1.step op, size_step h.1 h.2 hop⟩)
      ⟨initConnections_allocated, rfl⟩ hok).2
  · intro id pre mid post hrun hmid
    have hsplit : ((registry setting).run (initConnections setting.defaultCount) ops).2 =
        (pre ++ [.connection (some id)]) ++ mid ++ .connection (some id) :: post := by
      simpa using hrun
    refine Machine.run_countP_between (fun info => id ∉ info.ids)
      (q := fun o => o = .connection (some id))
      (fun _ _ hop hnew hid => removed_step hop hnew hid)
      (fun _ _ hop hf => fires_step hop hf) hok hsplit ?_
    rintro o ho rfl
    exact hmid ho

theorem removes_valid_once_reused :
    let setting : Setting := ⟨1, 2, by decide⟩
    let r := (registry setting).run (initConnections 1)
      [.newConn, .newConn, .remove 1 false, .newConn]
    r.1.size = r.1.ids.card ∧ r.2 = [.connection (some 1), .connection (some 2),
      .disconnect (some ⟨1, false⟩), .connection (some 1)] :=
  have h := @removes_valid_once ⟨1, 2, by decide⟩
    [.newConn, .newConn, .remove 1 false, .newConn] (by decide)
  ⟨h.1, by decide⟩

/-- Removing a connection twice counts it twice and fires the callback twice. -/
theorem removed_twice :
    let setting : Setting := ⟨1, 2, by decide⟩
    let r := (registry setting).run (initConnections 1)
      [.newConn, .newConn, .remove 1 false, .remove 1 false, .newConn]
    r.1.size = 1 ∧ r.1.ids.card = 2 ∧
      r.2 = [.connection (some 1), .connection (some 2), .disconnect (some ⟨1, false⟩),
        .disconnect (some ⟨1, false⟩), .connection (some 1)] := by
  decide

end Remove

end Plain.Manager
