import Plain.Connection.WorkFlag
import Plain.Manager.Balancer

/-! # Tasks of one connection

`enqueue_work` starts a task whenever its flag was clear, and a task that ends starts
another when any flag is set. Neither looks for a task of the connection that is still at
work. So a connection has one task at a time exactly when every start finds none, as it does
when work is asked for only for connections of which no thread and no queue has hold.
-/

namespace Plain.Manager

open Plain.Connection

/-- The balancer, the work flags of the connections, and the threads between the exchange
of a flag and their call of `enqueue`. -/
structure WorkState where
  balancer : Balancer
  workFlags : ℤ → BitVec 8
  callers : List ℤ

namespace WorkState

def new : WorkState := ⟨.new, fun _ => 0, []⟩

def setFlags (s : WorkState) (id : ℤ) (flags : BitVec 8) : WorkState :=
  { s with workFlags := fun i => if i = id then flags else s.workFlags i }

/-- `enqueue_work` of a connection whose socket is not awaitable, up to the call of
`Manager::enqueue`. -/
def enqueueWork (s : WorkState) (id : ℤ) (flag : WorkFlag) : WorkState :=
  let (r, flags) := exchangeWorkFlag (s.workFlags id) flag true
  if r then s else { s.setFlags id flags with callers := s.callers ++ [id] }

def callEnqueue (maxCount : BitVec 32) (s : WorkState) (k : ℕ) : WorkState :=
  match s.callers[k]? with
  | none => s
  | some id =>
      { s with balancer := s.balancer.enqueue maxCount id, callers := s.callers.eraseIdx k }

/-- A task whose connection was worked on well is worked on again unless it is idle. -/
def again (s : WorkState) (k : ℕ) (ok : Bool) : Bool :=
  match s.balancer.tasks[k]? with
  | none => false
  | some t => ok && s.workFlags t.id ≠ 0

end WorkState

/-- The steps of the threads. `ok` says that the connection is there and valid, and that
`work()` returned true. -/
inductive WorkOp where
  | enqueueWork (id : ℤ) (flag : WorkFlag)
  | callEnqueue (k : ℕ)
  | setWorkFlag (id : ℤ) (flag : WorkFlag) (enable : Bool)
  | advance (k : ℕ) (ok : Bool)

def workStep (maxCount : BitVec 32) (s : WorkState) : WorkOp → WorkState × Unit
  | .enqueueWork id flag => (s.enqueueWork id flag, ())
  | .callEnqueue k => (s.callEnqueue maxCount k, ())
  | .setWorkFlag id flag enable => (s.setFlags id (setWorkFlag (s.workFlags id) flag enable), ())
  | .advance k ok =>
      ({ s with balancer := s.balancer.advance maxCount k (s.again k ok) }, ())

def worker (maxCount : BitVec 32) : Machine WorkState WorkOp Unit := ⟨workStep maxCount⟩

/-- A task of the connection that has not returned from `conn->work()`. -/
def Task.worksOn (id : ℤ) (t : Task) : Bool := t.id = id ∧ t.phase = .handed

/-- No connection has two tasks that have not returned from `conn->work()`. -/
def OneTaskEach (tasks : List Task) : Prop := ∀ id, tasks.countP (Task.worksOn id) ≤ 1

namespace Balancer

variable {maxCount : BitVec 32} {b : Balancer}

/-- A call of `enqueue` that starts a task finds no task of this connection at work. -/
def StartsAlone (maxCount : BitVec 32) (b : Balancer) (id : ℤ) : Prop :=
  b.running = true → b.hasBudget maxCount = true → b.next id ≠ kInvalidId →
    b.tasks.countP (Task.worksOn (b.next id)) = 0

theorem next_tasks (b : Balancer) (tasks : List Task) (id : ℤ) :
    next { b with tasks := tasks } id = b.next id := by
  simp only [next, popWorkId]
  cases b.waitWorkConnIdDeque <;> rfl

theorem enqueue_tasks (maxCount : BitVec 32) (b : Balancer) (id : ℤ) :
    (b.enqueue maxCount id).tasks =
      if b.running = true ∧ b.hasBudget maxCount = true ∧ b.next id ≠ kInvalidId
      then b.tasks ++ [⟨b.next id, .handed⟩] else b.tasks := by
  rcases enqueue_cases maxCount b id with ⟨hs, _, ht⟩ | ⟨hs, _, ht⟩
  · rw [if_pos hs, ht]
    rfl
  · rw [if_neg hs, ht]

theorem enqueue_oneTaskEach (h : OneTaskEach b.tasks) (id : ℤ) :
    OneTaskEach (b.enqueue maxCount id).tasks ↔ StartsAlone maxCount b id := by
  simp only [OneTaskEach, enqueue_tasks]
  split
  · rename_i hs
    constructor
    · intro hone _ _ _
      have := hone (b.next id)
      simp [Task.worksOn] at this
      simpa [Task.worksOn] using this
    · intro halone i
      have h0 := halone hs.1 hs.2.1 hs.2.2
      rw [List.countP_append, List.countP_singleton]
      by_cases hi : i = b.next id
      · rw [hi, h0]
        split <;> simp
      · have hne : Task.worksOn i ⟨b.next id, .handed⟩ = false := by
          simp [Task.worksOn, Ne.symm hi]
        simpa [hne] using h i
  · rename_i hs
    exact iff_of_true h fun hr hb hn => absurd ⟨hr, hb, hn⟩ hs

end Balancer

namespace WorkState

/-- The id given to `Manager::enqueue` in a step, if the step calls it. -/
def enqueueCall (s : WorkState) : WorkOp → Option ℤ
  | .callEnqueue k => s.callers[k]?
  | .advance k ok =>
      match s.balancer.tasks[k]? with
      | some ⟨id, .decremented⟩ => some (if s.again k ok then id else kInvalidId)
      | _ => none
  | _ => none

/-- Every call of `enqueue` in the step starts its task, if any, alone. -/
def StartsAlone (maxCount : BitVec 32) (s : WorkState) (op : WorkOp) : Prop :=
  ∀ id ∈ s.enqueueCall op, s.balancer.StartsAlone maxCount id

variable {maxCount : BitVec 32} {s : WorkState}

theorem enqueueWork_balancer (id : ℤ) (flag : WorkFlag) :
    (s.enqueueWork id flag).balancer = s.balancer := by
  unfold enqueueWork
  dsimp only
  split <;> rfl

theorem oneTaskEach_set {tasks : List Task} {k : ℕ} {t t' : Task} (ht : tasks[k]? = some t)
    (hp : t'.phase ≠ .handed) (h : OneTaskEach tasks) : OneTaskEach (tasks.set k t') := by
  intro id
  have hset := Pool.countP_set (Task.worksOn id) ht t'
  have hnot : Task.worksOn id t' = false := by simp [Task.worksOn, hp]
  have := h id
  rw [hnot, Bool.toNat_false] at hset
  omega

theorem countP_erase {tasks : List Task} {k : ℕ} {id : ℤ}
    (ht : tasks[k]? = some ⟨id, .decremented⟩) (i : ℤ) :
    (tasks.eraseIdx k).countP (Task.worksOn i) = tasks.countP (Task.worksOn i) := by
  simpa [Task.worksOn] using Pool.countP_eraseIdx (Task.worksOn i) ht

theorem advance_oneTaskEach (h : OneTaskEach s.balancer.tasks) (k : ℕ) (ok : Bool) :
    OneTaskEach (s.balancer.advance maxCount k (s.again k ok)).tasks ↔
      s.StartsAlone maxCount (.advance k ok) := by
  simp only [Balancer.advance, StartsAlone, enqueueCall]
  cases ht : s.balancer.tasks[k]? with
  | none => simpa using h
  | some t =>
    obtain ⟨id, phase⟩ := t
    cases phase with
    | handed => simpa using oneTaskEach_set ht (by simp) h
    | returned => simpa using oneTaskEach_set ht (by simp; split <;> simp) h
    | loaded => simpa using oneTaskEach_set ht (by simp) h
    | decremented =>
      have hone : OneTaskEach (s.balancer.tasks.eraseIdx k) := fun i => by
        rw [countP_erase ht]
        exact h i
      simp only [Option.mem_def, Option.some.injEq, forall_eq']
      rw [Balancer.enqueue_oneTaskEach hone]
      simp only [Balancer.StartsAlone, countP_erase ht, Balancer.next_tasks]
      rfl

/-- A step keeps one task each exactly when it starts its task alone. -/
theorem step_oneTaskEach (h : OneTaskEach s.balancer.tasks) (op : WorkOp) :
    OneTaskEach (workStep maxCount s op).1.balancer.tasks ↔ s.StartsAlone maxCount op := by
  cases op with
  | enqueueWork id flag =>
    rw [workStep, enqueueWork_balancer]
    exact iff_of_true h (by simp [StartsAlone, enqueueCall])
  | callEnqueue k =>
    simp only [workStep, callEnqueue, StartsAlone, enqueueCall]
    cases hk : s.callers[k]? with
    | none => simpa using h
    | some id => simpa using Balancer.enqueue_oneTaskEach h id
  | setWorkFlag id flag enable => exact iff_of_true h (by simp [StartsAlone, enqueueCall])
  | advance k ok => exact advance_oneTaskEach h k ok

end WorkState

section Requests

/-- The tasks at work on a connection and the entries of it in the deque. -/
def Balancer.load (b : Balancer) (i : ℤ) : ℕ :=
  b.tasks.countP (Task.worksOn i) + b.waitWorkConnIdDeque.count i

variable {maxCount : BitVec 32} {b : Balancer} {s : WorkState} {i : ℤ}

theorem Balancer.load_popWorkId_le (b : Balancer) (i : ℤ) : b.popWorkId.2.load i ≤ b.load i := by
  unfold popWorkId
  split
  · exact le_rfl
  · next hdeque =>
    simp only [load, hdeque]
    exact Nat.add_le_add_left ((List.sublist_cons_self _ _).count_le _) _

theorem Balancer.load_pop_start (hn : b.popWorkId.1 ≠ kInvalidId) (i : ℤ) :
    (b.popWorkId.2.start b.popWorkId.1).load i = b.load i := by
  unfold popWorkId at hn ⊢
  split at hn
  · exact absurd rfl hn
  · next r rest hdeque =>
    simp only [load, start, hdeque, List.countP_append, List.countP_singleton, Task.worksOn,
      List.count_cons]
    by_cases hr : r = i
    · simp [hr]
      omega
    · simp [hr]

/-- A call of `enqueue` adds one task or entry at most, of the connection it is called for. -/
theorem Balancer.load_enqueue_le (maxCount : BitVec 32) (b : Balancer) (id : ℤ)
    (hi : i ≠ kInvalidId) :
    (b.enqueue maxCount id).load i ≤ b.load i + if id = i then 1 else 0 := by
  have hstart : (b.start id).load i = b.load i + if id = i then 1 else 0 := by
    by_cases hid : id = i
    · simp [load, start, Task.worksOn, hid]
      omega
    · simp [load, start, Task.worksOn, hid]
  have hpush : (b.pushWorkId id).load i ≤ b.load i + if id = i then 1 else 0 := by
    unfold pushWorkId
    split
    · exact Nat.le_add_right _ _
    · by_cases hid : id = i
      · simp [load, hid]
        omega
      · simp [load, hid]
  unfold enqueue
  split
  · exact Nat.le_add_right _ _
  split
  · by_cases hid : id = kInvalidId
    · have hne : id ≠ i := fun h => hi (h.symm.trans hid)
      simp only [if_pos hid, if_neg hne, Nat.add_zero]
      split
      · exact b.load_popWorkId_le i
      · next hn => exact (load_pop_start hn i).le
    · simp only [if_neg hid]
      exact hstart.le
  split
  · exact hpush
  · exact Nat.le_add_right _ _

theorem Balancer.next_cases (b : Balancer) (id : ℤ) (hn : b.next id ≠ kInvalidId) :
    b.next id = id ∨ b.next id ∈ b.waitWorkConnIdDeque := by
  unfold next popWorkId at hn ⊢
  split
  · split
    · simp_all
    · next hdeque =>
      rw [hdeque]
      exact .inr List.mem_cons_self
  · exact .inl rfl

namespace WorkState

/-- The tasks at work on a connection, its entries in the deque, and the threads about to
call `enqueue` for it. -/
def holders (s : WorkState) (i : ℤ) : ℕ := s.balancer.load i + s.callers.count i

/-- Work is asked for only for a connection that nobody has hold of: by an `enqueue_work`
that finds its flag clear, and by a task that ends and has its connection worked on again. -/
def RequestsAlone (s : WorkState) : WorkOp → Prop
  | .enqueueWork id flag =>
      (exchangeWorkFlag (s.workFlags id) flag true).1 = false → s.holders id = 0
  | .advance k ok =>
      ∀ id, s.balancer.tasks[k]? = some ⟨id, .decremented⟩ → s.again k ok = true →
        s.holders id = 0
  | _ => True

/-- Nothing but one task, entry or thread has hold of a connection. -/
def Single (s : WorkState) : Prop := ∀ i, i ≠ kInvalidId → s.holders i ≤ 1

theorem Single.enqueueWork (h : s.Single) {id : ℤ} {flag : WorkFlag}
    (hreq : s.RequestsAlone (.enqueueWork id flag)) : (s.enqueueWork id flag).Single := by
  intro i hi
  have hle := h i hi
  unfold WorkState.enqueueWork
  dsimp only
  split
  · exact hle
  · next hflag =>
    have h0 := hreq (Bool.not_eq_true _ ▸ hflag)
    simp only [holders, setFlags, List.count_append] at hle h0 ⊢
    by_cases hid : id = i
    · subst hid
      simp
      omega
    · simp [hid]
      omega

theorem Single.callEnqueue (h : s.Single) (k : ℕ) : (s.callEnqueue maxCount k).Single := by
  intro i hi
  have hle := h i hi
  unfold WorkState.callEnqueue
  split
  · exact hle
  · next id hk =>
    have hload := s.balancer.load_enqueue_le maxCount id hi
    have herase := Pool.countP_eraseIdx (· == i) hk
    simp only [holders, List.count] at hle ⊢
    by_cases hid : id = i
    · simp only [hid, beq_self_eq_true, Bool.toNat_true, if_true] at hload herase ⊢
      omega
    · simp only [hid, beq_eq_false_iff_ne.mpr hid, Bool.toNat_false, if_false] at hload herase ⊢
      omega

theorem countP_worksOn_set_le {tasks : List Task} {k : ℕ} {t t' : Task} (i : ℤ)
    (ht : tasks[k]? = some t) (ht' : t'.phase ≠ .handed) :
    (tasks.set k t').countP (Task.worksOn i) ≤ tasks.countP (Task.worksOn i) := by
  have hcount := Pool.countP_set (Task.worksOn i) ht t'
  have hnot : Task.worksOn i t' = false := by simp [Task.worksOn, ht']
  rw [hnot, Bool.toNat_false] at hcount
  omega

theorem Single.advance (h : s.Single) {k : ℕ} {ok : Bool}
    (hreq : s.RequestsAlone (.advance k ok)) :
    Single { s with balancer := s.balancer.advance maxCount k (s.again k ok) } := by
  intro i hi
  have hle := h i hi
  simp only [holders] at hle ⊢
  unfold Balancer.advance
  cases ht : s.balancer.tasks[k]? with
  | none => exact hle
  | some t =>
    have hset (t' : Task) (ht' : t'.phase ≠ .handed) := countP_worksOn_set_le i ht ht'
    obtain ⟨id, phase⟩ := t
    cases phase with
    | handed => exact le_trans (by simpa [Balancer.load] using hset ⟨id, .returned⟩ (by simp)) hle
    | returned =>
      refine le_trans ?_ hle
      simpa [Balancer.load] using hset ⟨id, _⟩ (by dsimp only; split <;> simp)
    | loaded =>
      exact le_trans (by simpa [Balancer.load] using hset ⟨id, .decremented⟩ (by simp)) hle
    | decremented =>
      have hload := Balancer.load_enqueue_le maxCount
        { s.balancer with tasks := s.balancer.tasks.eraseIdx k }
        (if s.again k ok = true then id else kInvalidId) hi
      have hsame : Balancer.load { s.balancer with tasks := s.balancer.tasks.eraseIdx k } i =
          s.balancer.load i := by
        rw [Balancer.load, Balancer.load, countP_erase ht]
      rw [hsame] at hload
      cases hagain : s.again k ok with
      | false =>
        simp only [hagain, Bool.false_eq_true, if_false, if_neg (Ne.symm hi)] at hload ⊢
        omega
      | true =>
        have h0 := hreq id ht hagain
        simp only [hagain, if_true] at hload ⊢
        by_cases hid : id = i
        · subst hid
          simp only [holders] at h0
          simp only [if_true] at hload
          omega
        · simp only [if_neg hid] at hload
          omega

theorem Single.step (h : s.Single) {op : WorkOp} (hreq : s.RequestsAlone op) :
    (workStep maxCount s op).1.Single := by
  cases op with
  | enqueueWork id flag => exact h.enqueueWork hreq
  | callEnqueue k => exact h.callEnqueue k
  | setWorkFlag id flag enable => exact h
  | advance k ok => exact h.advance hreq

theorem Single.startsAlone (h : s.Single) {op : WorkOp} (hreq : s.RequestsAlone op) :
    s.StartsAlone maxCount op := by
  intro id hid _ _ hn
  have hle := h _ hn
  rw [holders, Balancer.load] at hle
  rcases s.balancer.next_cases id hn with hnext | hwaits
  swap
  · have := List.count_pos_iff.mpr hwaits
    omega
  rw [hnext] at hn hle ⊢
  cases op with
  | enqueueWork id' flag => cases hid
  | callEnqueue k =>
    have := List.count_pos_iff.mpr (List.mem_of_getElem? hid)
    omega
  | setWorkFlag id' flag enable => cases hid
  | advance k ok =>
    simp only [enqueueCall] at hid
    split at hid
    · next id' ht =>
      cases hagain : s.again k ok with
      | false => simp_all
      | true =>
        obtain rfl : id' = id := by simpa [hagain] using hid
        have h0 := hreq id' ht hagain
        rw [holders, Balancer.load] at h0
        omega
    · cases hid

end WorkState

end Requests

open WorkState

/-- In every state of an interleaving each connection has at most one task that has not
returned from `conn->work()`, exactly when every start of a task in it finds no task of the
connection at work; and so it is if work is asked for only for connections that nobody has
hold of. -/
theorem one_task_each_iff (maxCount : BitVec 32) (ops : List WorkOp) :
    ((∀ n, OneTaskEach ((worker maxCount).run WorkState.new (ops.take n)).1.balancer.tasks) ↔
      (worker maxCount).Along (StartsAlone maxCount) WorkState.new ops) ∧
    ((worker maxCount).Along RequestsAlone WorkState.new ops →
      ∀ n, OneTaskEach ((worker maxCount).run WorkState.new (ops.take n)).1.balancer.tasks) := by
  have hnew : OneTaskEach WorkState.new.balancer.tasks := fun _ => Nat.zero_le 1
  have hiff := (worker maxCount).run_always_iff (P := fun s => OneTaskEach s.balancer.tasks)
    (fun _ op h => step_oneTaskEach h op) hnew ops
  have hsingle : WorkState.new.Single := fun _ _ => Nat.zero_le 1
  exact ⟨hiff, fun hreq => hiff.mpr ((worker maxCount).along_of_invariant
    (fun _ _ h hreq => h.step hreq) (fun _ _ h hreq => h.startsAlone hreq) hsingle hreq)⟩

/-- Two different flags start two tasks of an idle connection. -/
theorem two_flags_two_tasks :
    ((worker 4).run WorkState.new [.enqueueWork 1 .input, .callEnqueue 0,
      .enqueueWork 1 .output, .callEnqueue 0]).1.balancer.tasks =
        [⟨1, .handed⟩, ⟨1, .handed⟩] := by
  decide

end Plain.Manager
