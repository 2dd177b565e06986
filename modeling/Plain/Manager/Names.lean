import Plain.Connection.Response
import Plain.Foundation.Bytes
import Plain.Manager.Registry

/-! # The names of connections

The manager keeps the names of connections by their ids. A name that is there is neither
replaced by `set_name` nor taken away with its connection, so the first name of an id
stays for whatever connection gets the id.
-/

namespace Plain.Manager

open Connection (ascii)
structure Named where
  info : ConnectionInfo
  connNames : ℤ → Option (List Byte)

/-- The calls that a name depends on. A name is a `std::string_view`: behind its characters
stand others, up to the next null character. -/
inductive NameOp where
  | registry (op : RegistryOp)
  | setName (connId : ℤ) (name behind : List Byte)
  deriving Repr, DecidableEq

namespace ConnectionInfo

/-- Whether `get_conn` finds a connection. The index is computed in `size_t`. -/
def getConn (info : ConnectionInfo) (id : ℤ) : Bool :=
  toSize (id - 1) < info.list.length

end ConnectionInfo

namespace Named

def new (setting : Setting) : Named :=
  ⟨.initConnections setting.defaultCount, fun _ => none⟩

/-- `conn_names.emplace`, which keeps the name that is there. -/
def emplace (s : Named) (connId : ℤ) (name : List Byte) : Named :=
  match s.connNames connId with
  | some _ => s
  | none => { s with connNames := fun id => if id = connId then some name else s.connNames id }

def setName (s : Named) (connId : ℤ) (name behind : List Byte) : Named :=
  if s.info.getConn connId then s.emplace connId (cString (name ++ behind)) else s

def getName (settingName : List Byte) (s : Named) (connId : ℤ) : List Byte :=
  match s.connNames connId with
  | none =>
      (if settingName = [] then ascii "unknown" else settingName) ++ ascii "." ++
        ascii (toString connId)
  | some name => name

end Named

def names (setting : Setting) : Machine Named NameOp Unit where
  step s
    | .registry op => ({ s with info := (registryStep setting s.info op).1 }, ())
    | .setName connId name behind => (s.setName connId name behind, ())

/-- The names that were set since the connections of the ids were created. -/
def nameSince (setting : Setting) (s : Named) (since : ℤ → Option (List Byte)) :
    NameOp → ℤ → Option (List Byte)
  | .registry .newConn => fun id =>
      if (s.info.newConn setting).1 = some id then none else since id
  | .setName connId name _ => fun id => if id = connId then some name else since id
  | .registry _ => since

def defaultName (settingName : List Byte) (connId : ℤ) : List Byte :=
  settingName ++ ascii "." ++ ascii (toString connId)

/-- A new connection does not find an old name, and a name is set where there is none, or the
same. -/
def Named.Fits (setting : Setting) (settingName : List Byte) (s : Named) : NameOp → Prop
  | .registry .newConn =>
      ∀ id, (s.info.newConn setting).1 = some id →
        s.getName settingName id = defaultName settingName id
  | .setName connId name behind =>
      connId ∈ s.info.ids → (s.connNames connId).getD (cString (name ++ behind)) = name
  | .registry _ => True

section Step

variable {setting : Setting} {settingName : List Byte} {s : Named}
variable {since : ℤ → Option (List Byte)}

/-- Every valid connection has the name that was last set since it was created. -/
def Current (settingName : List Byte) (s : Named) (since : ℤ → Option (List Byte)) : Prop :=
  ∀ id ∈ s.info.ids, s.getName settingName id = (since id).getD (defaultName settingName id)

theorem getConn_of_mem {info : ConnectionInfo} (h : info.Allocated setting) {id : ℤ}
    (hid : id ∈ info.ids) : info.getConn id = true := by
  obtain ⟨hpos, hle⟩ := (h.mem_iff id).mp (Or.inl hid)
  have hlen := h.le_length
  have hmax := h.max_le
  have hbound := setting.maxCount.toInt_lt
  have hsize : toSize (id - 1) = (id - 1).toNat := by
    rw [toSize, Int.emod_eq_of_lt (by omega) (by omega)]
  rw [ConnectionInfo.getConn, hsize, decide_eq_true_eq]
  omega

theorem connNames_emplace (s : Named) (connId id : ℤ) (name : List Byte) :
    (s.emplace connId name).connNames id =
      if id = connId then some ((s.connNames connId).getD name) else s.connNames id := by
  unfold Named.emplace
  split
  · next h =>
    split
    · next hid => rw [hid, h, Option.getD_some]
    · rfl
  · next h => simp only [h, Option.getD_none]

theorem info_emplace (s : Named) (connId : ℤ) (name : List Byte) :
    (s.emplace connId name).info = s.info := by
  unfold Named.emplace
  split <;> rfl

theorem info_setName (s : Named) (connId : ℤ) (name behind : List Byte) :
    (s.setName connId name behind).info = s.info := by
  unfold Named.setName
  split
  · exact info_emplace ..
  · rfl

theorem getName_congr {s t : Named} {id : ℤ} (h : s.connNames id = t.connNames id) :
    s.getName settingName id = t.getName settingName id := by
  simp only [Named.getName, h]

theorem getName_of_some {id : ℤ} {name : List Byte} (h : s.connNames id = some name) :
    s.getName settingName id = name := by
  simp only [Named.getName, h]

theorem ids_remove_subset (info : ConnectionInfo) (connId : ℤ) (noEvent : Bool) :
    (info.remove connId noEvent).2.ids ⊆ info.ids := by
  unfold ConnectionInfo.remove
  split
  · exact Finset.Subset.refl _
  · dsimp only
    split
    · exact Finset.Subset.refl _
    · exact Finset.erase_subset _ _

theorem Current.mono (h : Current settingName s since) {t : Named}
    (hids : t.info.ids ⊆ s.info.ids) (hnames : t.connNames = s.connNames) :
    Current settingName t since := by
  intro id hid
  rw [getName_congr (congrFun hnames id)]
  exact h id (hids hid)

theorem current_newConn_iff (ha : s.info.Allocated setting) (h : Current settingName s since) :
    Current settingName ((names setting).step s (.registry .newConn)).1
        (nameSince setting s since (.registry .newConn)) ↔
      s.Fits setting settingName (.registry .newConn) := by
  rcases ha.newConn_spec with ⟨-, he⟩ | ⟨-, id, hnot, hid, hids, -, -⟩
  · simp only [names, registryStep, nameSince, Named.Fits, he, reduceCtorEq, if_false,
      false_implies, implies_true, iff_true]
    exact h
  · have hself : nameSince setting s since (.registry .newConn) id = none := if_pos hid
    constructor
    · intro h' i hi
      obtain rfl := Option.some.inj (hid.symm.trans hi)
      have hnew := h' id (hids ▸ Finset.mem_insert_self id s.info.ids)
      rwa [hself] at hnew
    · intro hfits i hi
      have hi' : i ∈ insert id s.info.ids := hids ▸ hi
      rcases Finset.mem_insert.mp hi' with rfl | hmem
      · rw [hself]
        exact hfits i hid
      · have hother : nameSince setting s since (.registry .newConn) i = since i := by
          refine if_neg fun h => hnot ?_
          rwa [Option.some.inj (hid.symm.trans h)]
        rw [hother]
        exact h i hmem

theorem connNames_setName_ne {connId id : ℤ} (hne : id ≠ connId) (name behind : List Byte) :
    (s.setName connId name behind).connNames id = s.connNames id := by
  unfold Named.setName
  split
  · rw [connNames_emplace, if_neg hne]
  · rfl

theorem getName_setName_self (ha : s.info.Allocated setting) {connId : ℤ}
    (hmem : connId ∈ s.info.ids) (name behind : List Byte) :
    (s.setName connId name behind).getName settingName connId =
      (s.connNames connId).getD (cString (name ++ behind)) := by
  apply getName_of_some
  rw [Named.setName, if_pos (getConn_of_mem ha hmem), connNames_emplace, if_pos rfl]

theorem current_setName_iff (ha : s.info.Allocated setting) (h : Current settingName s since)
    (connId : ℤ) (name behind : List Byte) :
    Current settingName (s.setName connId name behind)
        (nameSince setting s since (.setName connId name behind)) ↔
      s.Fits setting settingName (.setName connId name behind) := by
  have hself : nameSince setting s since (.setName connId name behind) connId = some name :=
    if_pos rfl
  rw [Current, info_setName]
  constructor
  · intro h' hmem
    have hname := h' connId hmem
    rwa [getName_setName_self ha hmem, hself] at hname
  · intro hfits id hid
    by_cases heq : id = connId
    · subst heq
      rw [getName_setName_self ha hid, hself]
      exact hfits hid
    · have hother : nameSince setting s since (.setName connId name behind) id = since id :=
        if_neg heq
      rw [getName_congr (connNames_setName_ne heq name behind), hother]
      exact h id hid

/-- The names stay current in a step exactly when it fits. -/
theorem current_step_iff (ha : s.info.Allocated setting) (h : Current settingName s since)
    (op : NameOp) :
    Current settingName ((names setting).step s op).1 (nameSince setting s since op) ↔
      s.Fits setting settingName op := by
  cases op with
  | setName connId name behind => exact current_setName_iff ha h connId name behind
  | registry op =>
    cases op with
    | newConn => exact current_newConn_iff ha h
    | remove connId noEvent =>
      refine iff_of_true (h.mono ?_ rfl) trivial
      exact ids_remove_subset ..
    | setKeepAlive index flag => exact iff_of_true (h.mono (Finset.Subset.refl _) rfl) trivial

theorem allocated_step (ha : s.info.Allocated setting) (op : NameOp) :
    ((names setting).step s op).1.info.Allocated setting := by
  cases op with
  | registry op => exact ha.step op
  | setName connId name behind =>
    have hinfo : ((names setting).step s (.setName connId name behind)).1.info = s.info :=
      info_setName s connId name behind
    exact hinfo ▸ ha

end Step

/-- The names of the valid connections are the ones last set since they were created, and the
default where there is none, exactly when no new connection finds an old name or an empty name
of the setting, and no name is set over another. -/
theorem names_current_iff (setting : Setting) (settingName : List Byte) (ops : List NameOp) :
    (∀ n, let r := (((names setting).noting (nameSince setting)).run
          (Named.new setting, fun _ => none) (ops.take n)).1
        ∀ id ∈ r.1.info.ids,
          r.1.getName settingName id = (r.2 id).getD (defaultName settingName id)) ↔
      (names setting).Along (Named.Fits setting settingName) (Named.new setting) ops := by
  rw [← (names setting).along_noting (nameSince setting)
    (s := (Named.new setting, fun _ => none))]
  exact ((names setting).noting (nameSince setting)).run_always_iff_of_invariant
    (I := fun r => r.1.info.Allocated setting)
    (P := fun r => Current settingName r.1 r.2) (fun r op ha _ => allocated_step ha op)
    (fun r op ha _ h => current_step_iff ha h op) ConnectionInfo.initConnections_allocated
    (fun id hid => absurd hid (Finset.notMem_empty id))
    (Machine.along_of_forall _ fun _ _ => trivial)

/-- A second name is ignored. The connection that gets the id of a removed one has its
name. -/
theorem old_names_stay :
    let setting : Setting := ⟨1, 1, by decide⟩
    let first : List NameOp := [.registry .newConn, .setName 1 [97] []]
    (((names setting).run (.new setting) (first ++ [.setName 1 [98] []])).1.getName [112] 1 =
        [97]) ∧
      ((names setting).run (.new setting)
        (first ++ [.registry (.remove 1 true), .registry .newConn])).1.getName [112] 1 = [97] ∧
      defaultName [112] 1 = [112, 46, 49] := by
  decide

end Plain.Manager
