import Plain.Foundation.Pool
import Plain.Manager.Registry

/-! # The work balancer of a manager

Connections with something to do are handed to the executor up to a limit, the others
wait in a deque. A task that ends decrements the count outside the lock and then calls
`enqueue` once more, for its own connection or for a waiting one. So no waiting
connection is forgotten. The count is right as long as its 32 bits do not wrap.
-/

namespace Plain.Manager

/-- How far a task has come: in `conn->work()`, back from it, past the load of the count,
past the decrement. -/
inductive Phase where
  | handed | returned | loaded | decremented
  deriving Repr, DecidableEq

/-- A task the executor was given, until its final call of `enqueue`. -/
structure Task where
  id : ℤ
  phase : Phase
  deriving Repr, DecidableEq

/-- The members of the manager that balance the work, and the tasks it has started. -/
structure Balancer where
  running : Bool
  workingConnCount : BitVec 32
  waitWorkConnIdDeque : List ℤ
  waitWorkConnIds : Finset ℤ
  tasks : List Task
  deriving DecidableEq

namespace Balancer

def new : Balancer := ⟨true, 0, [], ∅, []⟩

def popWorkId (b : Balancer) : ℤ × Balancer :=
  match b.waitWorkConnIdDeque with
  | [] => (kInvalidId, b)
  | r :: rest =>
      (r, { b with waitWorkConnIdDeque := rest, waitWorkConnIds := b.waitWorkConnIds.erase r })

def pushWorkId (b : Balancer) (id : ℤ) : Balancer :=
  if id ∈ b.waitWorkConnIds then b
  else { b with
    waitWorkConnIdDeque := b.waitWorkConnIdDeque ++ [id]
    waitWorkConnIds := insert id b.waitWorkConnIds }

def start (b : Balancer) (id : ℤ) : Balancer :=
  { b with
    workingConnCount := b.workingConnCount + 1
    tasks := b.tasks ++ [⟨id, .handed⟩] }

/-- `working_conn_max_count` is an `int32_t` that is compared as an `uint32_t`. -/
def hasBudget (maxCount : BitVec 32) (b : Balancer) : Bool :=
  maxCount.toInt ≤ 0 ∨ b.workingConnCount < maxCount

def enqueue (maxCount : BitVec 32) (b : Balancer) (id : ℤ) : Balancer :=
  if !b.running then b
  else if b.hasBudget maxCount then
    let (id, b) := if id = kInvalidId then b.popWorkId else (id, b)
    if id = kInvalidId then b else b.start id
  else if id ≠ kInvalidId then b.pushWorkId id
  else b

/-- The next step of a task in `Impl::work`. The decrement is a load and a `fetch_sub`; the
final call of `enqueue` is for the own connection if it is to be worked on `again`. -/
def advance (maxCount : BitVec 32) (b : Balancer) (k : ℕ) (again : Bool) : Balancer :=
  match b.tasks[k]? with
  | none => b
  | some ⟨id, .handed⟩ => { b with tasks := b.tasks.set k ⟨id, .returned⟩ }
  | some ⟨id, .returned⟩ =>
      let phase := if b.workingConnCount > 0 then Phase.loaded else .decremented
      { b with tasks := b.tasks.set k ⟨id, phase⟩ }
  | some ⟨id, .loaded⟩ =>
      { b with
        workingConnCount := b.workingConnCount - 1
        tasks := b.tasks.set k ⟨id, .decremented⟩ }
  | some ⟨id, .decremented⟩ =>
      enqueue maxCount { b with tasks := b.tasks.eraseIdx k } (if again then id else kInvalidId)

def undecremented (b : Balancer) : ℕ := b.tasks.countP fun t => t.phase ≠ .decremented

end Balancer

inductive BalancerOp where
  | enqueue (id : ℤ)
  | advance (k : ℕ) (again : Bool)
  deriving Repr, DecidableEq

def balancerStep (maxCount : BitVec 32) (b : Balancer) : BalancerOp → Balancer × Unit
  | .enqueue id => (b.enqueue maxCount id, ())
  | .advance k again => (b.advance maxCount k again, ())

def balancer (maxCount : BitVec 32) : Machine Balancer BalancerOp Unit :=
  ⟨balancerStep maxCount⟩

namespace Balancer

/-- The count is that of the tasks not yet decremented, and within a positive limit. -/
def Within (maxCount : BitVec 32) (b : Balancer) : Prop :=
  b.workingConnCount.toNat = b.undecremented ∧
    (0 < maxCount.toInt → (b.undecremented : ℤ) ≤ maxCount.toInt)

/-- The deque and its set agree; nothing waits without a limit, and a limit is kept. -/
structure Balanced (maxCount : BitVec 32) (b : Balancer) : Prop where
  running : b.running = true
  nodup : b.waitWorkConnIdDeque.Nodup
  toFinset_eq : b.waitWorkConnIdDeque.toFinset = b.waitWorkConnIds
  valid : kInvalidId ∉ b.waitWorkConnIdDeque
  unlimited : maxCount.toInt ≤ 0 → b.waitWorkConnIdDeque = []
  limited : 0 < maxCount.toInt → b.Within maxCount

/-- Some task will still call `enqueue` if a connection waits. -/
def HandsOver (b : Balancer) : Prop := b.waitWorkConnIdDeque ≠ [] → b.tasks ≠ []

def Countable (maxCount : BitVec 32) (b : Balancer) : Prop :=
  0 < maxCount.toInt ∨ b.undecremented < 2 ^ 32

def next (b : Balancer) (id : ℤ) : ℤ := if id = kInvalidId then b.popWorkId.1 else id

variable {maxCount : BitVec 32} {b b' : Balancer}

@[simp] theorem popWorkId_tasks : b.popWorkId.2.tasks = b.tasks := by
  unfold popWorkId
  split <;> rfl

@[simp] theorem popWorkId_count : b.popWorkId.2.workingConnCount = b.workingConnCount := by
  unfold popWorkId
  split <;> rfl

@[simp] theorem pushWorkId_tasks {id : ℤ} : (b.pushWorkId id).tasks = b.tasks := by
  unfold pushWorkId
  split <;> rfl

@[simp] theorem pushWorkId_count {id : ℤ} :
    (b.pushWorkId id).workingConnCount = b.workingConnCount := by
  unfold pushWorkId
  split <;> rfl

theorem start_undecremented (id : ℤ) : (b.start id).undecremented = b.undecremented + 1 := by
  simp [undecremented, start]

theorem enqueue_cases (maxCount : BitVec 32) (b : Balancer) (id : ℤ) :
    (b.running = true ∧ b.hasBudget maxCount = true ∧ b.next id ≠ kInvalidId) ∧
      (b.enqueue maxCount id).workingConnCount = (b.start (b.next id)).workingConnCount ∧
      (b.enqueue maxCount id).tasks = (b.start (b.next id)).tasks ∨
    ¬ (b.running = true ∧ b.hasBudget maxCount = true ∧ b.next id ≠ kInvalidId) ∧
      (b.enqueue maxCount id).workingConnCount = b.workingConnCount ∧
      (b.enqueue maxCount id).tasks = b.tasks := by
  cases hr : b.running with
  | false => simp [enqueue, hr]
  | true =>
    cases hb : b.hasBudget maxCount with
    | false =>
      refine .inr ⟨by simp, ?_⟩
      simp only [enqueue, hr, hb, Bool.not_true, Bool.false_eq_true, if_false]
      split
      · exact ⟨pushWorkId_count, pushWorkId_tasks⟩
      · exact ⟨rfl, rfl⟩
    | true =>
      by_cases hid : id = kInvalidId
      · by_cases hn : b.popWorkId.1 = kInvalidId <;> simp [enqueue, hr, hb, hid, next, hn, start]
      · simp [enqueue, hr, hb, hid, next, start]

namespace Within

theorem congr (h : b.Within maxCount) (hc : b'.workingConnCount = b.workingConnCount)
    (hu : b'.undecremented = b.undecremented) : b'.Within maxCount := by
  rw [Within, hc, hu]
  exact h

theorem start (h : b.Within maxCount) (hb : b.hasBudget maxCount = true) {id : ℤ}
    (hs : (b.start id).Countable maxCount) : (b.start id).Within maxCount := by
  obtain ⟨hcount, hle⟩ := h
  rw [hasBudget, decide_eq_true_eq, BitVec.lt_def, hcount] at hb
  rw [Countable, start_undecremented] at hs
  have hmax := maxCount.toInt_eq_toNat_cond
  have hlt := maxCount.isLt
  -- a positive limit is below the point where the count wraps
  have hsmall : b.undecremented + 1 < 2 ^ 32 := by
    rcases hs with hpos | hs
    · have := hle hpos
      split at hmax <;> omega
    · exact hs
  refine ⟨?_, fun hpos => ?_⟩
  · rw [start_undecremented, ← hcount]
    simp only [Balancer.start, BitVec.toNat_add, hcount]
    exact Nat.mod_eq_of_lt hsmall
  · rw [start_undecremented]
    split at hmax <;> omega

theorem enqueue (h : b.Within maxCount) {id : ℤ}
    (hs : (b.enqueue maxCount id).Countable maxCount) :
    (b.enqueue maxCount id).Within maxCount := by
  rcases enqueue_cases maxCount b id with ⟨⟨_, hb, _⟩, hc, ht⟩ | ⟨_, hc, ht⟩
  · have hu : (b.enqueue maxCount id).undecremented = (b.start (b.next id)).undecremented := by
      rw [undecremented, ht, undecremented]
    rw [Countable, hu] at hs
    exact (h.start hb hs).congr hc hu
  · exact h.congr hc (by rw [undecremented, ht, undecremented])

theorem decrement (h : b.Within maxCount) {k : ℕ} {id : ℤ}
    (ht : b.tasks[k]? = some ⟨id, .loaded⟩) :
    Within maxCount { b with
      workingConnCount := b.workingConnCount - 1
      tasks := b.tasks.set k ⟨id, .decremented⟩ } := by
  have hless : (b.tasks.set k ⟨id, .decremented⟩).countP (fun t => t.phase ≠ .decremented) + 1 =
      b.undecremented := by
    simpa [undecremented] using Pool.countP_set (fun t : Task => decide (t.phase ≠ .decremented)) ht
      ⟨id, .decremented⟩
  obtain ⟨hcount, hle⟩ := h
  refine ⟨?_, fun hpos => ?_⟩
  · have hone : (1 : BitVec 32) ≤ b.workingConnCount := by
      rw [BitVec.le_def, hcount, ← hless]
      simp
    rw [BitVec.toNat_sub_of_le hone, hcount, ← hless]
    rfl
  · have := hle hpos
    rw [← hless] at this
    exact Int.le_trans (by simp [undecremented]) this

end Within

theorem undecremented_set {k : ℕ} {t t' : Task} (ht : b.tasks[k]? = some t)
    (hp : decide (t'.phase ≠ .decremented) = decide (t.phase ≠ .decremented)) :
    undecremented { b with tasks := b.tasks.set k t' } = b.undecremented := by
  have := Pool.countP_set (fun t : Task => decide (t.phase ≠ .decremented)) ht t'
  rw [hp] at this
  exact Nat.add_right_cancel this

theorem undecremented_erase {k : ℕ} {id : ℤ} (ht : b.tasks[k]? = some ⟨id, .decremented⟩) :
    undecremented { b with tasks := b.tasks.eraseIdx k } = b.undecremented := by
  simpa [undecremented] using
    Pool.countP_eraseIdx (fun t : Task => decide (t.phase ≠ .decremented)) ht

theorem Within.advance (h : b.Within maxCount) {k : ℕ} {again : Bool}
    (hs : (b.advance maxCount k again).Countable maxCount) :
    (b.advance maxCount k again).Within maxCount := by
  unfold Balancer.advance at hs ⊢
  split
  · exact h
  · rename_i id ht
    exact h.congr rfl (undecremented_set ht rfl)
  · rename_i id ht
    -- the count includes this very task, so the load is not zero
    have hpos : b.workingConnCount > 0 := by
      have := Pool.countP_pos (fun t : Task => decide (t.phase ≠ .decremented)) ht (by simp)
      rw [gt_iff_lt, BitVec.lt_def, h.1]
      exact this
    rw [if_pos hpos]
    exact h.congr rfl (undecremented_set ht rfl)
  · rename_i id ht
    exact h.decrement ht
  · rename_i id ht
    rw [ht] at hs
    have he : Within maxCount { b with tasks := b.tasks.eraseIdx k } :=
      h.congr rfl (undecremented_erase ht)
    exact he.enqueue hs

/-- A step keeps the count right unless it makes the tasks too many for it. -/
theorem step_within (h : b.Within maxCount) (op : BalancerOp)
    (hs : (balancerStep maxCount b op).1.Countable maxCount) :
    (balancerStep maxCount b op).1.Within maxCount := by
  cases op with
  | enqueue id => exact h.enqueue hs
  | advance k again => exact h.advance hs

theorem new_within : new.Within maxCount := ⟨rfl, fun h => Int.le_of_lt h⟩

theorem new_balanced : new.Balanced maxCount :=
  ⟨rfl, List.nodup_nil, rfl, List.not_mem_nil, fun _ => rfl, fun _ => new_within⟩

namespace Balanced

theorem congr (h : b.Balanced maxCount) (hr : b'.running = b.running)
    (hd : b'.waitWorkConnIdDeque = b.waitWorkConnIdDeque)
    (hi : b'.waitWorkConnIds = b.waitWorkConnIds)
    (hw : 0 < maxCount.toInt → b'.Within maxCount) : b'.Balanced maxCount :=
  ⟨hr ▸ h.running, hd ▸ h.nodup, hd ▸ hi ▸ h.toFinset_eq, hd ▸ h.valid, hd ▸ h.unlimited, hw⟩

theorem popWorkId (h : b.Balanced maxCount) : b.popWorkId.2.Balanced maxCount := by
  unfold Balancer.popWorkId
  split
  · exact h
  · rename_i r rest he
    have hn := h.nodup
    have hf := h.toFinset_eq
    have hv := h.valid
    rw [he] at hn hf hv
    rw [List.nodup_cons] at hn
    refine ⟨h.running, hn.2, ?_, fun hm => hv (List.mem_cons_of_mem _ hm), fun hmax => ?_,
      h.limited⟩
    · rw [← hf, List.toFinset_cons, Finset.erase_insert (by simpa using hn.1)]
    · exact absurd (he.symm.trans (h.unlimited hmax)) (List.cons_ne_nil r rest)

theorem pushWorkId (h : b.Balanced maxCount) (hmax : 0 < maxCount.toInt) {id : ℤ}
    (hid : id ≠ kInvalidId) : (b.pushWorkId id).Balanced maxCount := by
  unfold Balancer.pushWorkId
  split
  · exact h
  · rename_i hnot
    rw [← h.toFinset_eq, List.mem_toFinset] at hnot
    refine ⟨h.running, ?_, ?_, ?_, fun hle => absurd hmax (Int.not_lt.mpr hle), h.limited⟩
    · exact List.nodup_append.mpr ⟨h.nodup, List.nodup_singleton _, by
        rintro a ha _ (⟨⟩ | ⟨_, ⟨⟩⟩) rfl
        exact hnot ha⟩
    · rw [← h.toFinset_eq, List.toFinset_append]
      ext x
      simp
    · rw [List.mem_append, List.mem_singleton, not_or]
      exact ⟨h.valid, fun he => hid he.symm⟩

theorem enqueue (h : b.Balanced maxCount) (id : ℤ) :
    (b.enqueue maxCount id).Balanced maxCount := by
  have hw (hpos : 0 < maxCount.toInt) : (b.enqueue maxCount id).Within maxCount :=
    (h.limited hpos).enqueue (.inl hpos)
  revert hw
  simp only [Balancer.enqueue, h.running, Bool.not_true, Bool.false_eq_true, if_false]
  split
  · by_cases hid : id = kInvalidId
    · rw [if_pos hid]
      split
      · exact fun _ => h.popWorkId
      · exact h.popWorkId.congr rfl rfl rfl
    · rw [if_neg hid, if_neg hid]
      exact h.congr rfl rfl rfl
  · rename_i hb
    rw [hasBudget, decide_eq_true_eq, not_or, Int.not_le] at hb
    split
    · rename_i hid
      exact fun _ => h.pushWorkId hb.1 hid
    · exact fun _ => h

/-- A call of `enqueue` never leaves a connection waiting without a task. -/
theorem enqueue_handsOver (h : b.Balanced maxCount) (id : ℤ) :
    (b.enqueue maxCount id).HandsOver := by
  simp only [Balancer.enqueue, h.running, Bool.not_true, Bool.false_eq_true, if_false]
  split
  · by_cases hid : id = kInvalidId
    · rw [if_pos hid]
      unfold Balancer.popWorkId
      split
      · rename_i he
        simp [HandsOver, he]
      · rename_i r rest he
        have hr : r ≠ kInvalidId := fun hr => h.valid (by simp [he, hr])
        simp [HandsOver, hr, Balancer.start]
    · simp [hid, HandsOver, Balancer.start]
  · rename_i hb
    rw [hasBudget, decide_eq_true_eq, not_or, Int.not_le, BitVec.lt_def] at hb
    have hcount := (h.limited hb.1).1
    have hmax := maxCount.toInt_eq_toNat_cond
    have hpos : 0 < b.undecremented := by split at hmax <;> omega
    have htasks : b.tasks ≠ [] := by
      rintro he
      simp [undecremented, he] at hpos
    split
    · unfold Balancer.pushWorkId
      split <;> exact fun _ => htasks
    · exact fun _ => htasks

theorem advance (h : b.Balanced maxCount) (ho : b.HandsOver) (k : ℕ) (again : Bool) :
    (b.advance maxCount k again).Balanced maxCount ∧ (b.advance maxCount k again).HandsOver := by
  have hset (t : Task) : b.waitWorkConnIdDeque ≠ [] → b.tasks.set k t ≠ [] := by
    simpa [HandsOver] using ho
  have hw (hpos : 0 < maxCount.toInt) : (b.advance maxCount k again).Within maxCount :=
    (h.limited hpos).advance (.inl hpos)
  revert hw
  unfold Balancer.advance
  split
  · exact fun _ => ⟨h, ho⟩
  · exact fun hw => ⟨h.congr rfl rfl rfl hw, hset _⟩
  · exact fun hw => ⟨h.congr rfl rfl rfl hw, hset _⟩
  · exact fun hw => ⟨h.congr rfl rfl rfl hw, hset _⟩
  · rename_i id ht
    have he : Balanced maxCount { b with tasks := b.tasks.eraseIdx k } :=
      h.congr rfl rfl rfl fun hpos => (h.limited hpos).congr rfl (undecremented_erase ht)
    exact fun _ => ⟨he.enqueue _, he.enqueue_handsOver _⟩

end Balanced

theorem step_balanced (h : b.Balanced maxCount ∧ b.HandsOver) (op : BalancerOp) :
    (balancerStep maxCount b op).1.Balanced maxCount ∧
      (balancerStep maxCount b op).1.HandsOver := by
  cases op with
  | enqueue id => exact ⟨h.1.enqueue id, h.1.enqueue_handsOver id⟩
  | advance k again => exact h.1.advance h.2 k again

end Balancer

open Balancer

/-- In every interleaving of calls of `enqueue` with steps of the tasks, the deque has no
duplicates and the ids of its set, a positive limit is kept, and a task is still to call
`enqueue` whenever a connection waits. The count is that of the tasks not yet decremented
under a positive limit, or as long as there have always been fewer than `2 ^ 32` of them. -/
theorem no_connection_stranded (maxCount : BitVec 32) (ops : List BalancerOp) :
    let b := ((balancer maxCount).run new ops).1
    b.waitWorkConnIdDeque.Nodup ∧ b.waitWorkConnIdDeque.toFinset = b.waitWorkConnIds ∧
      (0 < maxCount.toInt → (b.undecremented : ℤ) ≤ maxCount.toInt) ∧
      (b.waitWorkConnIdDeque ≠ [] → b.tasks ≠ []) ∧
      ((∀ n, (((balancer maxCount).run new (ops.take n)).1).Countable maxCount) →
        b.workingConnCount.toNat = b.undecremented) := by
  obtain ⟨hb, ho⟩ := (balancer maxCount).run_keeps
    (P := fun b => b.Balanced maxCount ∧ b.HandsOver)
    (fun _ op hb => step_balanced hb op) ⟨new_balanced, fun hne => absurd rfl hne⟩ ops
  refine ⟨hb.nodup, hb.toFinset_eq, fun hpos => (hb.limited hpos).2 hpos, ho, fun hc => ?_⟩
  have halong : (balancer maxCount).Along
      (fun b op => ((balancer maxCount).step b op).1.Countable maxCount) new ops :=
    ((balancer maxCount).run_always_iff (fun _ _ _ => Iff.rfl) (hc 0) ops).mp hc
  exact ((balancer maxCount).run_invariant (P := Within maxCount)
    (fun _ op h => step_within h op) new_within halong).1

theorem no_connection_stranded_one :
    let ops : List BalancerOp := [.enqueue 1, .enqueue 2, .enqueue 3, .enqueue 2,
      .advance 0 false, .advance 0 false, .advance 0 false, .advance 0 false]
    let b := ((balancer 1).run new ops).1
    b.waitWorkConnIdDeque = [3] ∧ b.workingConnCount.toNat = b.undecremented ∧ b.tasks ≠ [] :=
  have h := no_connection_stranded 1 [.enqueue 1, .enqueue 2, .enqueue 3, .enqueue 2,
    .advance 0 false, .advance 0 false, .advance 0 false, .advance 0 false]
  ⟨by decide, h.2.2.2.2 fun _ => Or.inl (by decide), h.2.2.2.1 (by decide)⟩

theorem run_enqueue_unlimited (n : ℕ) (b : Balancer) (hb : b.running = true) :
    let r := ((balancer 0).run b (List.replicate n (.enqueue 1))).1
    r.workingConnCount = b.workingConnCount + BitVec.ofNat 32 n ∧
      r.undecremented = b.undecremented + n := by
  induction n generalizing b with
  | zero => simp
  | succ n ih =>
    have hstep : ((balancer 0).step b (.enqueue 1)).1 = b.start 1 := by
      simp [balancer, balancerStep, enqueue, hb, hasBudget, kInvalidId]
    obtain ⟨hc, hu⟩ := ih (b.start 1) hb
    rw [List.replicate_succ, Machine.run_cons, hstep]
    refine ⟨?_, ?_⟩
    · rw [hc, Nat.add_comm n 1, BitVec.ofNat_add, ← BitVec.add_assoc]
      rfl
    · rw [hu]
      simp [undecremented, start]
      omega

/-- Without a limit, `2 ^ 32` tasks wrap the count to zero. -/
theorem unlimited_count_wraps :
    let b := ((balancer 0).run new (List.replicate (2 ^ 32) (.enqueue 1))).1
    b.workingConnCount.toNat = 0 ∧ b.undecremented = 2 ^ 32 := by
  obtain ⟨hc, hu⟩ := run_enqueue_unlimited (2 ^ 32) new rfl
  exact ⟨by rw [hc]; rfl, by rw [hu]; rfl⟩

end Plain.Manager
