import Plain.Manager.Registry

/-! # Setting connections up

The manager accepts connections on its listen socket or from a descriptor, and the
connector opens them. Each takes a connection from the registry first and gives it up
when a socket call fails. One path returns without giving it up: the descriptor that
`accept(sock_id)` gets is tested after the connection is taken.
-/

namespace Plain.Manager

def kInvalidSocket : ℤ := -1

/-- The answers of the socket calls both `accept` functions make, in the order they are made. -/
structure AcceptCalls where
  setNonblocking : Bool
  error : Bool
  setLinger : Bool
  sockAdd : Bool
  deriving Repr, DecidableEq

structure ConnectCalls where
  connect : Bool
  setNonblocking : Bool
  setLinger : Bool
  sockAdd : Bool
  deriving Repr, DecidableEq

/-- What `init_func` returns, and the keep-alive flag it may set on the connection. -/
structure Init where
  keepAlive : Option Bool
  success : Bool
  deriving Repr, DecidableEq

namespace ConnectionInfo

def isKeepAlive (info : ConnectionInfo) (id : ℤ) : Bool :=
  (info.list.getD (id - 1).toNat default).keepAlive

/-- `remove(conn, true)` and an empty pointer. -/
def giveUp (info : ConnectionInfo) (id : ℤ) : Option ℤ × ConnectionInfo :=
  (none, (info.remove id true).2)

/-- The socket calls at the end of both `accept` functions. -/
def enroll (info : ConnectionInfo) (id : ℤ) (calls : AcceptCalls) :
    Option ℤ × ConnectionInfo :=
  if !calls.setNonblocking then info.giveUp id
  else if calls.error then info.giveUp id
  else if !calls.setLinger then info.giveUp id
  else if !calls.sockAdd then info.giveUp id
  else (some id, info)

def accept (setting : Setting) (listening accepted : Bool) (calls : AcceptCalls)
    (info : ConnectionInfo) : Option ℤ × ConnectionInfo :=
  if !listening then (none, info)
  else match info.newConn setting with
    | (none, info) => (none, info)
    | (some id, info) => if !accepted then info.giveUp id else info.enroll id calls

/-- `Manager::accept(sock_id)`. A refused connection is accepted on the listen socket and
closed, which a manager without one cannot do: it dereferences a null pointer. -/
def acceptSocket (setting : Setting) (listener : Bool) (sockId : ℤ) (calls : AcceptCalls)
    (info : ConnectionInfo) : Option (Option ℤ × ConnectionInfo) :=
  match info.newConn setting with
  | (none, info) => if listener then some (none, info) else none
  | (some id, info) =>
      if sockId = kInvalidSocket then some (none, info) else some (info.enroll id calls)

def initialise (info : ConnectionInfo) (id : ℤ) (initFunc : Option Init) : ConnectionInfo :=
  match initFunc.bind Init.keepAlive with
  | none => info
  | some flag => info.setKeepAlive (id - 1).toNat flag

def connectImpl (setting : Setting) (initFunc : Option Init) (calls : ConnectCalls)
    (info : ConnectionInfo) : Option ℤ × ConnectionInfo :=
  match info.newConn setting with
  | (none, info) => (none, info)
  | (some id, info) =>
      let info := info.initialise id initFunc
      if (initFunc.map Init.success).getD true = false then info.giveUp id
      else if !calls.connect then info.giveUp id
      else if !calls.setNonblocking then info.giveUp id
      else if !calls.setLinger then info.giveUp id
      else if !calls.sockAdd then info.giveUp id
      else (some id, info)

end ConnectionInfo

/-- The calls that set a connection up, with all the socket calls answer. -/
inductive SetUp where
  | accept (listening accepted : Bool) (calls : AcceptCalls)
  | acceptSocket (listener : Bool) (sockId : ℤ) (calls : AcceptCalls)
  | connectImpl (initFunc : Option Init) (calls : ConnectCalls)
  deriving Repr, DecidableEq

namespace SetUp

/-- What a call leaves and returns; nothing when it does not return. -/
def result (setting : Setting) (info : ConnectionInfo) :
    SetUp → Option (Option ℤ × ConnectionInfo)
  | .accept listening accepted calls => some (info.accept setting listening accepted calls)
  | .acceptSocket listener sockId calls => info.acceptSocket setting listener sockId calls
  | .connectImpl initFunc calls => some (info.connectImpl setting initFunc calls)

def taken (setting : Setting) (info : ConnectionInfo) : SetUp → Option ℤ
  | .accept listening _ _ => if listening then (info.newConn setting).1 else none
  | .acceptSocket _ _ _ | .connectImpl _ _ => (info.newConn setting).1

/-- The registry when the socket calls are made for the connection `id`. -/
def opened (setting : Setting) (info : ConnectionInfo) (id : ℤ) : SetUp → ConnectionInfo
  | .accept _ _ _ | .acceptSocket _ _ _ => (info.newConn setting).2
  | .connectImpl initFunc _ => (info.newConn setting).2.initialise id initFunc

/-- The call gets the invalid descriptor while a connection can be taken. -/
def Leaks (setting : Setting) (info : ConnectionInfo) : SetUp → Prop
  | .acceptSocket _ sockId _ => sockId = kInvalidSocket ∧ info.isFull setting = false
  | .accept _ _ _ | .connectImpl _ _ => False

end SetUp

/-- The calls on the registry, by themselves or for setting a connection up. -/
inductive ManagerOp where
  | registry (op : RegistryOp)
  | setUp (call : SetUp)
  deriving Repr, DecidableEq

/-- A call that does not return leaves nothing to look at: the registry stays as it is. -/
def managerStep (setting : Setting) (info : ConnectionInfo) :
    ManagerOp → ConnectionInfo × Option (Option ℤ)
  | .registry op => ((registryStep setting info op).1, none)
  | .setUp call => (((call.result setting info).map Prod.snd).getD info,
      (call.result setting info).map Prod.fst)

def manager (setting : Setting) : Machine ConnectionInfo ManagerOp (Option (Option ℤ)) :=
  ⟨managerStep setting⟩

/-- The valid ids and the size are as before, and an id that was taken is free. -/
structure Undone (taken : Option ℤ) (before after : ConnectionInfo) : Prop where
  ids_eq : after.ids = before.ids
  size_eq : after.size = before.size
  free : ∀ id ∈ taken, id ∈ after.freeIds

namespace ConnectionInfo

variable {setting : Setting} {info : ConnectionInfo} {id : ℤ}

theorem initialise_cases (info : ConnectionInfo) (id : ℤ) (initFunc : Option Init) :
    info.initialise id initFunc = info ∨
      ∃ flag, info.initialise id initFunc = info.setKeepAlive (id - 1).toNat flag := by
  unfold initialise
  split
  · exact Or.inl rfl
  · exact Or.inr ⟨_, rfl⟩

theorem enroll_cases (info : ConnectionInfo) (id : ℤ) (calls : AcceptCalls) :
    info.enroll id calls = (some id, info) ∨ info.enroll id calls = info.giveUp id := by
  unfold enroll
  split_ifs <;> simp

theorem connectImpl_cases {after : ConnectionInfo} (h : info.newConn setting = (some id, after))
    (initFunc : Option Init) (calls : ConnectCalls) :
    info.connectImpl setting initFunc calls = (some id, after.initialise id initFunc) ∨
      info.connectImpl setting initFunc calls = (after.initialise id initFunc).giveUp id := by
  unfold connectImpl
  rw [h]
  dsimp only
  split_ifs <;> simp

theorem accept_cases {after : ConnectionInfo} (h : info.newConn setting = (some id, after))
    (accepted : Bool) (calls : AcceptCalls) :
    info.accept setting true accepted calls = (some id, after) ∨
      info.accept setting true accepted calls = after.giveUp id := by
  unfold accept
  rw [h]
  cases accepted with
  | false => exact Or.inr rfl
  | true => exact after.enroll_cases id calls

theorem acceptSocket_eq {after : ConnectionInfo} (h : info.newConn setting = (some id, after))
    (listener : Bool) (sockId : ℤ) (calls : AcceptCalls) :
    info.acceptSocket setting listener sockId calls =
      if sockId = kInvalidSocket then some (none, after) else some (after.enroll id calls) := by
  unfold acceptSocket
  rw [h]

theorem isFull_of_newConn (h : (info.newConn setting).1 = some id) :
    info.isFull setting = false := by
  by_contra hfull
  rw [Bool.not_eq_false] at hfull
  unfold newConn at h
  rw [if_pos hfull] at h
  cases h

theorem remove_of_not_keepAlive (noEvent : Bool) (hpos : 1 ≤ id) (hle : id ≤ info.maxId)
    (hk : info.isKeepAlive id = false) :
    (info.remove id noEvent).2 = { info with
      freeIds := insert id info.freeIds
      size := info.size - 1
      ids := info.ids.erase id } := by
  have hin : ¬ (id ≤ 0 ∨ info.maxId < id) := by omega
  unfold isKeepAlive at hk
  simp only [remove, if_neg hin, hk, Bool.false_eq_true, if_false]
  congr 1
  split <;> omega

theorem giveUp_undone {opened : ConnectionInfo} (ha : info.Allocated setting)
    (h : (info.newConn setting).1 = some id)
    (hids : opened.ids = (info.newConn setting).2.ids)
    (hsize : opened.size = (info.newConn setting).2.size)
    (hmax : opened.maxId = (info.newConn setting).2.maxId)
    (hk : opened.isKeepAlive id = false) :
    Undone (some id) info (opened.giveUp id).2 := by
  rcases ha.newConn_spec with ⟨_, he⟩ | ⟨_, id', hnot, hid, hins, hadd, hnew⟩
  · rw [he] at h
    cases h
  · rw [hid] at h
    cases h
    have hmem : id ∈ (info.newConn setting).2.ids := hins ▸ Finset.mem_insert_self _ _
    obtain ⟨hpos, hle⟩ := (hnew.mem_iff id).mp (Or.inl hmem)
    have hrem := remove_of_not_keepAlive true hpos (hmax ▸ hle) hk
    unfold giveUp
    rw [hrem]
    constructor
    · rw [hids, hins]
      exact Finset.erase_insert hnot
    · rw [hsize, hadd]
      rfl
    · rintro _ ⟨⟩
      exact Finset.mem_insert_self _ _

end ConnectionInfo

namespace SetUp

variable {setting : Setting} {info : ConnectionInfo}

theorem opened_eq (setting : Setting) (info : ConnectionInfo) (call : SetUp) (id : ℤ) :
    (call.opened setting info id).ids = (info.newConn setting).2.ids ∧
      (call.opened setting info id).size = (info.newConn setting).2.size ∧
      (call.opened setting info id).maxId = (info.newConn setting).2.maxId := by
  cases call with
  | accept | acceptSocket => exact ⟨rfl, rfl, rfl⟩
  | connectImpl initFunc calls =>
    rcases (info.newConn setting).2.initialise_cases id initFunc with h | ⟨flag, h⟩
    all_goals
      unfold opened
      dsimp only
      rw [h]
      exact ⟨rfl, rfl, rfl⟩

theorem result_of_not_taken (ha : info.Allocated setting) {call : SetUp}
    (h : call.taken setting info = none) :
    call.result setting info = some (none, info) ∨ call.result setting info = none := by
  have hnew : (info.newConn setting).1 = none → info.newConn setting = (none, info) := by
    intro hnone
    rcases ha.newConn_spec with ⟨_, he⟩ | ⟨_, id, _, hid, _⟩
    · exact he
    · rw [hid] at hnone
      cases hnone
  cases call with
  | accept listening accepted calls =>
    cases listening with
    | false => exact Or.inl rfl
    | true =>
      left
      unfold result ConnectionInfo.accept
      rw [hnew h]
      rfl
  | acceptSocket listener sockId calls =>
    unfold result ConnectionInfo.acceptSocket
    rw [hnew h]
    cases listener with
    | true => exact Or.inl rfl
    | false => exact Or.inr rfl
  | connectImpl initFunc calls =>
    left
    unfold result ConnectionInfo.connectImpl
    rw [hnew h]

/-- A call that takes a connection leaks it, returns it or gives it up. -/
theorem result_of_taken {call : SetUp} {id : ℤ} (h : call.taken setting info = some id) :
    (info.newConn setting).1 = some id ∧
      ((call.Leaks setting info ∧
          call.result setting info = some (none, (info.newConn setting).2)) ∨
        ¬ call.Leaks setting info ∧
          (call.result setting info = some (some id, call.opened setting info id) ∨
            call.result setting info = some ((call.opened setting info id).giveUp id))) := by
  have hpair (hid : (info.newConn setting).1 = some id) :
      info.newConn setting = (some id, (info.newConn setting).2) := Prod.ext hid rfl
  cases call with
  | accept listening accepted calls =>
    cases listening with
    | false => cases h
    | true =>
      refine ⟨h, Or.inr ⟨not_false, ?_⟩⟩
      exact (ConnectionInfo.accept_cases (hpair h) accepted calls).imp (congrArg some)
        (congrArg some)
  | acceptSocket listener sockId calls =>
    refine ⟨h, ?_⟩
    have hres := ConnectionInfo.acceptSocket_eq (hpair h) listener sockId calls
    by_cases hs : sockId = kInvalidSocket
    · rw [if_pos hs] at hres
      exact Or.inl ⟨⟨hs, ConnectionInfo.isFull_of_newConn h⟩, hres⟩
    · rw [if_neg hs] at hres
      refine Or.inr ⟨fun hleak => hs hleak.1, ?_⟩
      exact ((info.newConn setting).2.enroll_cases id calls).imp
        (fun h => hres.trans (congrArg _ h)) fun h => hres.trans (congrArg _ h)
  | connectImpl initFunc calls =>
    refine ⟨h, Or.inr ⟨not_false, ?_⟩⟩
    exact (ConnectionInfo.connectImpl_cases (hpair h) initFunc calls).imp (congrArg some)
      (congrArg some)

theorem taken_isSome_of_leaks (ha : info.Allocated setting) {call : SetUp}
    (h : call.Leaks setting info) : ∃ id, call.taken setting info = some id := by
  cases call with
  | accept | connectImpl => exact h.elim
  | acceptSocket listener sockId calls =>
    rcases ha.newConn_spec with ⟨hfull, _⟩ | ⟨_, id, _, hid, _⟩
    · rw [h.2] at hfull
      cases hfull
    · exact ⟨id, hid⟩

theorem not_undone_of_leaks (ha : info.Allocated setting) {call : SetUp}
    (hleak : call.Leaks setting info) :
    ∃ after, call.result setting info = some (none, after) ∧
      ¬ Undone (call.taken setting info) info after := by
  obtain ⟨id, ht⟩ := taken_isSome_of_leaks ha hleak
  obtain ⟨hnew, ⟨_, hres⟩ | ⟨hnot, _⟩⟩ := result_of_taken ht
  · refine ⟨_, hres, fun hundone => ?_⟩
    rcases ha.newConn_spec with ⟨_, he⟩ | ⟨_, id', hnot, _, hins, _⟩
    · rw [he] at hnew
      cases hnew
    · apply hnot
      rw [← hundone.ids_eq, hins]
      exact Finset.mem_insert_self _ _
  · exact absurd hleak hnot

theorem undone_of_not_leaks (ha : info.Allocated setting) {call : SetUp}
    (hk : ∀ id ∈ call.taken setting info,
      (call.opened setting info id).isKeepAlive id = false)
    (hleak : ¬ call.Leaks setting info) {after : ConnectionInfo}
    (hafter : call.result setting info = some (none, after)) :
    Undone (call.taken setting info) info after := by
  cases ht : call.taken setting info with
  | none =>
    rcases result_of_not_taken ha ht with hres | hres
    · cases hafter.symm.trans hres
      exact ⟨rfl, rfl, by simp⟩
    · cases hafter.symm.trans hres
  | some id =>
    obtain ⟨hnew, ⟨h, _⟩ | ⟨_, hres | hres⟩⟩ := result_of_taken ht
    · exact absurd h hleak
    · cases hafter.symm.trans hres
    · obtain ⟨hids, hsize, hmax⟩ := opened_eq setting info call id
      have hundone := ConnectionInfo.giveUp_undone ha hnew hids hsize hmax (hk id ht)
      cases hafter.symm.trans hres
      exact hundone

/-- In a registry whose ids are allocated, an empty pointer means that the set-up is undone,
unless the connection leaked. -/
theorem undone_iff (ha : info.Allocated setting) (call : SetUp)
    (hk : ∀ id ∈ call.taken setting info,
      (call.opened setting info id).isKeepAlive id = false) :
    (∀ after, call.result setting info = some (none, after) →
        Undone (call.taken setting info) info after) ↔ ¬ call.Leaks setting info := by
  constructor
  · intro hall hleak
    obtain ⟨after, hafter, hnot⟩ := not_undone_of_leaks ha hleak
    exact hnot (hall after hafter)
  · intro hleak after hafter
    exact undone_of_not_leaks ha hk hleak hafter

theorem opened_allocated (ha : info.Allocated setting) (call : SetUp) (id : ℤ) :
    (call.opened setting info id).Allocated setting := by
  have hnew : (info.newConn setting).2.Allocated setting := ha.step .newConn
  cases call with
  | accept | acceptSocket => exact hnew
  | connectImpl initFunc calls =>
    unfold opened
    dsimp only
    rcases (info.newConn setting).2.initialise_cases id initFunc with h | ⟨flag, h⟩
    · rw [h]
      exact hnew
    · rw [h]
      exact hnew.setKeepAlive_allocated _ flag

theorem result_allocated (ha : info.Allocated setting) (call : SetUp) :
    (((call.result setting info).map Prod.snd).getD info).Allocated setting := by
  cases ht : call.taken setting info with
  | none =>
    rcases result_of_not_taken ha ht with hres | hres
    all_goals
      rw [hres]
      exact ha
  | some id =>
    obtain ⟨_, ⟨_, hres⟩ | ⟨_, hres | hres⟩⟩ := result_of_taken ht
    all_goals rw [hres]
    · exact ha.step .newConn
    · exact opened_allocated ha call id
    · exact (opened_allocated ha call id).remove_allocated id true

end SetUp

variable {setting : Setting}

theorem managerStep_allocated {info : ConnectionInfo} (ha : info.Allocated setting)
    (op : ManagerOp) : (managerStep setting info op).1.Allocated setting := by
  cases op with
  | registry op => exact ha.step op
  | setUp call => exact SetUp.result_allocated ha call

/-- After every sequence of calls, setting a connection up that is not kept alive either
succeeds or leaves the valid ids and the size as they were, with the id it took free again,
exactly when it is not `accept(sock_id)` with the invalid descriptor. -/
theorem setUp_undone_iff (ops : List ManagerOp) (call : SetUp) :
    let info := ((manager setting).run (ConnectionInfo.initConnections setting.defaultCount)
      ops).1
    (∀ id ∈ call.taken setting info, (call.opened setting info id).isKeepAlive id = false) →
    ((∀ after, call.result setting info = some (none, after) →
        Undone (call.taken setting info) info after) ↔ ¬ call.Leaks setting info) := by
  intro info hk
  have ha : info.Allocated setting := (manager setting).run_keeps
    (P := fun info => info.Allocated setting) (fun _ op h => managerStep_allocated h op)
    ConnectionInfo.initConnections_allocated ops
  exact SetUp.undone_iff ha call hk

/-- The second connection of a table of two fails at `set_linger` and is given up. -/
theorem setUp_undone_iff_linger :
    let setting : Setting := ⟨1, 2, by decide⟩
    let info := ((manager setting).run (ConnectionInfo.initConnections 1)
      [.setUp (.acceptSocket true 7 ⟨true, false, true, true⟩)]).1
    let call : SetUp := .accept true true ⟨true, false, false, true⟩
    info.ids = {1} ∧ call.taken setting info = some 2 ∧
      ((∀ after, call.result setting info = some (none, after) →
        Undone (call.taken setting info) info after) ↔ ¬ call.Leaks setting info) :=
  ⟨by decide, by decide, @setUp_undone_iff ⟨1, 2, by decide⟩ _ _ (by decide)⟩

/-- The invalid descriptor costs the only connection of a table: none is left afterwards. -/
theorem invalid_socket_leaks :
    let setting : Setting := ⟨1, 1, by decide⟩
    let info := ConnectionInfo.initConnections 1
    let call : SetUp := .acceptSocket true kInvalidSocket ⟨true, false, true, true⟩
    ∃ after, call.result setting info = some (none, after) ∧
      (call.opened setting info 1).isKeepAlive 1 = false ∧
      info.ids = ∅ ∧ info.size = 0 ∧ after.ids = {1} ∧ after.size = 1 ∧
      after.freeIds = ∅ ∧ after.newConn setting = (none, after) :=
  ⟨_, rfl, by decide⟩

end Plain.Manager
