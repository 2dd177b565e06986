import Mathlib.Data.Finset.Max
import Mathlib.Data.Int.ConditionallyCompleteOrder
import Mathlib.Order.ConditionallyCompleteLattice.Basic
import Plain.Foundation.Machine

/-! # The descriptors a select manager watches

The manager keeps what it watches four times: as bits in the sets it hands to `select`,
as an ordered set of descriptors, and as the largest of them. Every registration and
every removal updates all of them, so one call of `select` covers each registered socket.
Descriptors are those the `FD_` macros are defined for.
-/

namespace Plain.Select

def fdSetSize : ℕ := 1024

def kInvalidId : ℤ := -1

abbrev FdSet := BitVec fdSetSize

namespace FdSet

def set (fd : ℤ) (fds : FdSet) : FdSet := fds ||| BitVec.twoPow fdSetSize fd.toNat

def clr (fd : ℤ) (fds : FdSet) : FdSet := fds &&& ~~~ BitVec.twoPow fdSetSize fd.toNat

def members (fds : FdSet) : Finset ℤ :=
  ((Finset.range fdSetSize).filter fun i => fds.getLsbD i).image fun i : ℕ => (i : ℤ)

end FdSet

def Descriptor (fd : ℤ) : Prop := 0 ≤ fd ∧ fd < fdSetSize

instance (fd : ℤ) : Decidable (Descriptor fd) := inferInstanceAs (Decidable (_ ∧ _))

namespace FdSet

theorem mem_members {fds : FdSet} {fd : ℤ} :
    fd ∈ fds.members ↔ Descriptor fd ∧ fds.getLsbD fd.toNat = true := by
  simp only [members, Finset.mem_image, Finset.mem_filter, Finset.mem_range]
  constructor
  · rintro ⟨i, ⟨hi, hbit⟩, rfl⟩
    exact ⟨⟨Int.natCast_nonneg i, Int.ofNat_lt.mpr hi⟩, hbit⟩
  · rintro ⟨⟨hpos, hlt⟩, hbit⟩
    exact ⟨fd.toNat, ⟨by omega, hbit⟩, Int.toNat_of_nonneg hpos⟩

theorem getLsbD_bit {fd other : ℤ} (hfd : Descriptor fd) (hother : Descriptor other) :
    (BitVec.twoPow fdSetSize fd.toNat).getLsbD other.toNat = true ↔ other = fd := by
  obtain ⟨hpos, hlt⟩ := hfd
  obtain ⟨hpos', hlt'⟩ := hother
  rw [BitVec.getLsbD_twoPow, Bool.and_eq_true, decide_eq_true_iff, decide_eq_true_iff]
  omega

@[simp] theorem members_zero : members 0 = ∅ := by
  ext fd
  simp [mem_members]

theorem members_set {fd : ℤ} (hfd : Descriptor fd) (fds : FdSet) :
    (fds.set fd).members = insert fd fds.members := by
  ext other
  rw [Finset.mem_insert, mem_members, mem_members, set, BitVec.getLsbD_or, Bool.or_eq_true]
  constructor
  · rintro ⟨hother, hbit | hbit⟩
    · exact Or.inr ⟨hother, hbit⟩
    · exact Or.inl ((getLsbD_bit hfd hother).mp hbit)
  · rintro (rfl | ⟨hother, hbit⟩)
    · exact ⟨hfd, Or.inr ((getLsbD_bit hfd hfd).mpr rfl)⟩
    · exact ⟨hother, Or.inl hbit⟩

theorem members_clr {fd : ℤ} (hfd : Descriptor fd) (fds : FdSet) :
    (fds.clr fd).members = fds.members.erase fd := by
  ext other
  rw [Finset.mem_erase, mem_members, mem_members, clr, BitVec.getLsbD_and]
  by_cases hother : Descriptor other
  · have hlt : other.toNat < fdSetSize := by
      obtain ⟨hpos, hlt⟩ := hother
      omega
    have hbit := getLsbD_bit hfd hother
    simp only [BitVec.getLsbD_not, hlt, decide_true, Bool.true_and, Bool.and_eq_true,
      Bool.not_eq_true', ← Bool.not_eq_true, hbit, hother, true_and]
    exact and_comm
  · simp [hother]

end FdSet

/-- A set of descriptors as registered and as last used by `select`. -/
structure FdInfo where
  full : FdSet
  use : FdSet
  deriving DecidableEq

structure Timeval where
  tvSec : ℤ
  tvUsec : ℤ
  deriving Repr, DecidableEq

structure Impl where
  readFds : FdInfo
  writeFds : FdInfo
  exceptFds : FdInfo
  timeout : Timeval
  fdSize : ℤ
  maxFd : ℤ
  validFds : Finset ℤ
  selectTimeout : ℤ
  selectResult : ℤ
  deriving DecidableEq

/-- The arguments of a call of `socket::select`; no timeout is a null pointer. -/
structure SelectCall where
  nfds : ℤ
  read : FdSet
  except : FdSet
  timeout : Option Timeval
  deriving DecidableEq

structure SelectAnswer where
  result : ℤ
  read : FdSet
  except : FdSet
  timeout : Timeval
  deriving DecidableEq

namespace Impl

def new (timeout : Timeval) : Impl where
  readFds := ⟨0, 0⟩
  writeFds := ⟨0, 0⟩
  exceptFds := ⟨0, 0⟩
  timeout := timeout
  fdSize := 0
  maxFd := kInvalidId
  validFds := ∅
  selectTimeout := 10
  selectResult := 0

/-- `valid_fds.empty() ? kInvalidId : *valid_fds.rbegin()`. -/
def lastFd (fds : Finset ℤ) : ℤ := if h : fds.Nonempty then fds.max' h else kInvalidId

def changeVaildFd (s : Impl) (id : ℤ) (flag : Bool) : Impl :=
  if flag then
    let fds := insert id s.validFds
    { s with validFds := fds, maxFd := lastFd fds }
  else if s.validFds = ∅ then s
  else
    let fds := s.validFds.erase id
    { s with validFds := fds, maxFd := lastFd fds }

def prepare (s : Impl) (listenFd ctrlReadFd : ℤ) : Impl :=
  if listenFd ≠ kInvalidId then
    let s := { s with
      readFds.full := s.readFds.full.set listenFd
      exceptFds.full := s.exceptFds.full.set listenFd }
    { s.changeVaildFd listenFd true with selectTimeout := -1 }
  else if ctrlReadFd ≠ kInvalidId then { s with selectTimeout := -1 }
  else { s with timeout := ⟨s.selectTimeout.tdiv 1000, s.selectTimeout.tmod 1000 * 1000⟩ }

def sockAdd (s : Impl) (sockId : ℤ) : Impl :=
  let s := { s with
    readFds.full := s.readFds.full.set sockId
    writeFds.full := s.writeFds.full.set sockId
    exceptFds.full := s.exceptFds.full.set sockId }
  let s := s.changeVaildFd sockId true
  { s with fdSize := s.fdSize + 1 }

def sockRemove (s : Impl) (sockId : ℤ) : Impl :=
  let id := sockId % 2 ^ 32
  let s := { s with
    readFds := ⟨s.readFds.full.clr id, s.readFds.use.clr id⟩
    writeFds := ⟨s.writeFds.full.clr id, s.writeFds.use.clr id⟩
    exceptFds := ⟨s.exceptFds.full.clr id, s.exceptFds.use.clr id⟩ }
  let s := s.changeVaildFd sockId false
  { s with fdSize := s.fdSize - 1 }

/-- The call `select` makes, if there is anything to watch. -/
def selectCall (s : Impl) : Option SelectCall :=
  if s.maxFd = kInvalidId then none
  else some ⟨s.maxFd + 1, s.readFds.full, s.exceptFds.full,
    if 0 ≤ s.selectTimeout then some s.timeout else none⟩

def select (s : Impl) (answer : SelectAnswer) : Impl :=
  match s.selectCall with
  | none => s
  | some call => { s with
      readFds.use := answer.read
      exceptFds.use := answer.except
      timeout := if call.timeout.isSome then answer.timeout else s.timeout
      selectResult := answer.result }

end Impl

/-- The calls on the manager; `select` stands for one round of its work. -/
inductive Op where
  | prepare (listenFd ctrlReadFd : ℤ)
  | sockAdd (sockId : ℤ)
  | sockRemove (sockId : ℤ)
  | select (answer : SelectAnswer)
  deriving DecidableEq

def Op.InRange : Op → Prop
  | .prepare listenFd _ => listenFd ≠ kInvalidId → Descriptor listenFd
  | .sockAdd sockId => Descriptor sockId
  | .sockRemove sockId => Descriptor sockId
  | .select _ => True

instance : (op : Op) → Decidable op.InRange
  | .prepare _ _ => inferInstanceAs (Decidable (_ → _))
  | .sockAdd fd => inferInstanceAs (Decidable (Descriptor fd))
  | .sockRemove fd => inferInstanceAs (Decidable (Descriptor fd))
  | .select _ => .isTrue trivial

/-- One call on the manager; a `select` reports the call it made of the system. -/
def step (s : Impl) : Op → Impl × Option SelectCall
  | .prepare listenFd ctrlReadFd => (s.prepare listenFd ctrlReadFd, none)
  | .sockAdd sockId => (s.sockAdd sockId, none)
  | .sockRemove sockId => (s.sockRemove sockId, none)
  | .select answer => (s.select answer, s.selectCall)

def machine : Machine Impl Op (Option SelectCall) := ⟨step⟩

/-- The registered descriptors are the bits of both sets, and `maxFd` is their last. -/
structure Watches (s : Impl) : Prop where
  read_eq : s.readFds.full.members = s.validFds
  except_eq : s.exceptFds.full.members = s.validFds
  max_eq : s.maxFd = Impl.lastFd s.validFds

namespace Watches

theorem lastFd_empty : Impl.lastFd ∅ = kInvalidId := rfl

theorem isGreatest_lastFd {fds : Finset ℤ} (h : fds.Nonempty) :
    IsGreatest (fds : Set ℤ) (Impl.lastFd fds) := by
  rw [Impl.lastFd, dif_pos h]
  exact fds.isGreatest_max' h

theorem new (timeout : Timeval) : Watches (Impl.new timeout) :=
  ⟨FdSet.members_zero, FdSet.members_zero, lastFd_empty.symm⟩

variable {s : Impl}

theorem add {fd : ℤ} (hfd : Descriptor fd) (h : Watches s) {t : Impl}
    (hread : t.readFds.full = s.readFds.full.set fd)
    (hexcept : t.exceptFds.full = s.exceptFds.full.set fd)
    (hvalid : t.validFds = insert fd s.validFds) (hmax : t.maxFd = Impl.lastFd t.validFds) :
    Watches t where
  read_eq := by rw [hread, FdSet.members_set hfd, h.read_eq, hvalid]
  except_eq := by rw [hexcept, FdSet.members_set hfd, h.except_eq, hvalid]
  max_eq := hmax

theorem sockRemove {fd : ℤ} (hfd : Descriptor fd) (h : Watches s) : Watches (s.sockRemove fd) := by
  have hid : fd % 2 ^ 32 = fd := by
    obtain ⟨hpos, hlt⟩ := hfd
    have : fd < 1024 := hlt
    omega
  by_cases hvalid : s.validFds = ∅
  · -- nothing is registered: `change_vaild_fd` returns early, and no bit was set
    have hread := FdSet.members_clr hfd s.readFds.full
    have hexcept := FdSet.members_clr hfd s.exceptFds.full
    rw [h.read_eq, hvalid, Finset.erase_empty] at hread
    rw [h.except_eq, hvalid, Finset.erase_empty] at hexcept
    simp only [Impl.sockRemove, Impl.changeVaildFd, hid, hvalid, if_true, Bool.false_eq_true,
      if_false]
    exact ⟨hread, hexcept, by rw [h.max_eq, hvalid]⟩
  · simp only [Impl.sockRemove, Impl.changeVaildFd, hid, hvalid, Bool.false_eq_true, if_false]
    exact ⟨by rw [FdSet.members_clr hfd, h.read_eq], by rw [FdSet.members_clr hfd, h.except_eq],
      rfl⟩

theorem prepare {listenFd : ℤ} (ctrlReadFd : ℤ)
    (hfd : listenFd ≠ kInvalidId → Descriptor listenFd) (h : Watches s) :
    Watches (s.prepare listenFd ctrlReadFd) := by
  by_cases hlisten : listenFd = kInvalidId
  · rw [Impl.prepare, if_neg (not_not.mpr hlisten)]
    split
    · exact ⟨h.read_eq, h.except_eq, h.max_eq⟩
    · exact ⟨h.read_eq, h.except_eq, h.max_eq⟩
  · rw [Impl.prepare, if_pos hlisten]
    exact h.add (hfd hlisten) rfl rfl rfl rfl

theorem select (answer : SelectAnswer) (h : Watches s) : Watches (s.select answer) := by
  rw [Impl.select]
  split
  · exact h
  · exact ⟨h.read_eq, h.except_eq, h.max_eq⟩

theorem step (op : Op) (h : Watches s) (hop : op.InRange) : Watches (machine.step s op).1 := by
  cases op with
  | prepare listenFd ctrlReadFd => exact h.prepare ctrlReadFd hop
  | sockAdd sockId => exact h.add hop rfl rfl rfl rfl
  | sockRemove sockId => exact h.sockRemove hop
  | select answer => exact h.select answer

/-- The call of `select` covers every registered descriptor. -/
theorem covers (h : Watches s) {fd : ℤ} (hfd : fd ∈ s.validFds) :
    ∃ call, s.selectCall = some call ∧ fd < call.nfds ∧ fd ∈ call.read.members ∧
      fd ∈ call.except.members := by
  have hmax := isGreatest_lastFd ⟨fd, hfd⟩
  rw [← h.max_eq] at hmax
  have hle : fd ≤ s.maxFd := hmax.2 hfd
  have hread : fd ∈ s.readFds.full.members := h.read_eq ▸ hfd
  have hexcept : fd ∈ s.exceptFds.full.members := h.except_eq ▸ hfd
  have hvalid : s.maxFd ≠ kInvalidId := by
    have := (FdSet.mem_members.mp hread).1.1
    rw [kInvalidId]
    omega
  exact ⟨_, if_neg hvalid, Int.lt_add_one_iff.mpr hle, hread, hexcept⟩

end Watches

/-- After any calls the bits of the read and of the except set are the valid descriptors,
`maxFd` is the largest of them, and the next `select` covers each of them. -/
theorem select_covers_registered (timeout : Timeval) (ops : List Op)
    (hops : ∀ op ∈ ops, op.InRange) :
    let s := (machine.run (Impl.new timeout) ops).1
    s.readFds.full.members = s.validFds ∧ s.exceptFds.full.members = s.validFds ∧
      (s.validFds = ∅ → s.maxFd = kInvalidId) ∧
      (s.validFds.Nonempty → IsGreatest (s.validFds : Set ℤ) s.maxFd) ∧
      ∀ fd ∈ s.validFds, ∃ call, s.selectCall = some call ∧ fd < call.nfds ∧
        fd ∈ call.read.members ∧ fd ∈ call.except.members := by
  intro s
  have h : Watches s :=
    machine.run_invariant (fun _ => Watches.step) (Watches.new timeout)
      (machine.along_of_forall_mem hops)
  refine ⟨h.read_eq, h.except_eq, ?_, ?_, fun fd hfd => h.covers hfd⟩
  · intro hvalid
    rw [h.max_eq, hvalid, Watches.lastFd_empty]
  · intro hvalid
    rw [h.max_eq]
    exact Watches.isGreatest_lastFd hvalid

/-- A listening socket and two connections, the larger of which is closed again. -/
theorem select_covers_registered_closed :
    let s := (machine.run (Impl.new ⟨0, 0⟩)
      [.prepare 3 4, .sockAdd 9, .sockAdd 7, .sockRemove 9, .sockRemove 8]).1
    s.validFds = {3, 7} ∧ s.maxFd = 7 ∧ s.readFds.full.members = {3, 7} :=
  ⟨by decide, by decide,
    (select_covers_registered ⟨0, 0⟩
      [.prepare 3 4, .sockAdd 9, .sockAdd 7, .sockRemove 9, .sockRemove 8] (by decide)).1.trans
      (by decide)⟩

end Plain.Select
