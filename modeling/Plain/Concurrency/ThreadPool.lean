import Plain.Concurrency.PoolWorker
import Mathlib.Algebra.BigOperators.Group.Finset.Basic
import Mathlib.Algebra.Order.Group.Multiset
import Mathlib.Tactic.Abel

/-! # The thread pool

Tasks are enqueued to any of the workers, and workers give tasks away to each other. Which of
them a call chooses depends on flags that others change at the same time, so the choice is left
open. The threads interleave arbitrarily; what is done under a lock is one step. A task throws
nothing of its own, but it may let out that the pool has refused what it enqueues. `shutdown` is
called from outside of the pool.
-/

namespace Plain.Concurrency

variable {α : Type*}

/-- The workers, and the one that `shutdown` is at once it has been called. -/
structure ThreadPool (α : Type*) where
  workers : ℕ → PoolWorker α
  stopping : Option ℕ

/-- A thread enqueues tasks to a worker or goes on to release its semaphore; the thread of a
worker makes its next step; the task it runs enqueues tasks there, or ends with the exception of a
pool that has been stopped; the next step of `shutdown`. -/
inductive PoolOp (α : Type*) where
  | enqueue (k : ℕ) (tasks : List α)
  | release (k : ℕ)
  | work (k : ℕ) (expired : Bool) (found : List ℕ)
  | enqueueLocal (k : ℕ) (tasks : List α)
  | throws (k : ℕ)
  | shutdown
  deriving DecidableEq, Repr

namespace ThreadPool

def new : ThreadPool α := ⟨fun _ => .new, none⟩

def setWorker (s : ThreadPool α) (k : ℕ) (w : PoolWorker α) : ThreadPool α :=
  { s with workers := Function.update s.workers k w }

theorem workers_setWorker_self (s : ThreadPool α) (k : ℕ) (w : PoolWorker α) :
    (s.setWorker k w).workers k = w := by
  simp only [setWorker, Function.update_self]

theorem workers_setWorker_of_ne (s : ThreadPool α) {j k : ℕ} (h : j ≠ k) (w : PoolWorker α) :
    (s.setWorker k w).workers j = s.workers j := by
  simp only [setWorker, Function.update_of_ne h]

/-- `enqueue_foreign` of a worker, with the release of the semaphore still to come. -/
def push (s : ThreadPool α) (k : ℕ) (tasks : List (Option α)) : Option (ThreadPool α) :=
  ((s.workers k).enqueueForeign tasks).map fun (w, release) => s.setWorker k (w.owing release)

/-- The next step of the thread of the `k`-th of `n` workers. What a stopped worker refuses to
take ends the thread. -/
def work (n : ℕ) (s : ThreadPool α) (k : ℕ) (expired : Bool) (found : List ℕ) : ThreadPool α :=
  let w := s.workers k
  match w.working with
  | .donate start ((j, count) :: todo) =>
      match s.push j (cut w.privateQueue start (start + count)) with
      | none => s.setWorker k { w with working := .leave }
      | some s' =>
          s'.setWorker k
            { w with
              privateQueue := blank w.privateQueue start (start + count)
              working := .donate (start + count) todo }
  | _ =>
      s.setWorker k (w.stepWorker n expired (found.filter fun j => j < n ∧ j ≠ k))

def shutdown (n : ℕ) (s : ThreadPool α) : ThreadPool α :=
  match s.stopping with
  | none => { s with stopping := some 0 }
  | some k =>
      if k < n then
        if (s.workers k).stopping = .done then { s with stopping := some (k + 1) }
        else s.setWorker k (s.workers k).stepShutdown
      else s

end ThreadPool

/-- A pool of `n` workers under any interleaving. The answer to a call is whether it has not
thrown. -/
def threadPool (α : Type*) (n : ℕ) : Machine (ThreadPool α) (PoolOp α) Bool where
  step s
    | .enqueue k tasks =>
        if k < n then
          match s.push k (tasks.map some) with
          | none => (s, false)
          | some s' => (s', true)
        else (s, false)
    | .release k => (if k < n then s.setWorker k (s.workers k).release else s, true)
    | .work k expired found => (if k < n then s.work n k expired found else s, true)
    | .enqueueLocal k tasks =>
        if k < n then
          match (s.workers k).enqueueLocal tasks with
          | none => (s, false)
          | some w => (s.setWorker k w, true)
        else (s, false)
    | .throws k =>
        (if k < n ∧ s.stopping ≠ none then s.setWorker k (s.workers k).thrown else s, true)
    | .shutdown => (s.shutdown n, true)

/-- The task that the next step of a worker begins to run. A task that has been moved out of the
queue does nothing. -/
def PoolWorker.begun (w : PoolWorker α) : List α :=
  match w.working with
  | .test => if w.atomicAbort then [] else w.privateQueue.getLast?.join.toList
  | _ => []

/-- The next step of a worker ends its thread behind the deadline, whatever is in the queue. -/
def PoolWorker.strands (w : PoolWorker α) : Bool :=
  match w.working with
  | .expired => !w.publicQueue.isEmpty
  | _ => false

/-- The tasks that were accepted, run, and thrown away by `shutdown`, and the workers whose
thread has ended with tasks in the public queue. -/
structure PoolLog (α : Type*) where
  accepted : Multiset α
  executed : Multiset α
  dropped : Multiset α
  stranded : List ℕ

def PoolLog.note (n : ℕ) (s : ThreadPool α) (r : PoolLog α) : PoolOp α → PoolLog α
  | .enqueue k tasks =>
      if k < n ∧ (s.workers k).abort = false then
        { r with accepted := r.accepted + tasks, stranded := r.stranded.filter (· ≠ k) }
      else r
  | .enqueueLocal k tasks =>
      if k < n ∧ ((s.workers k).enqueueLocal tasks).isSome then
        { r with accepted := r.accepted + tasks }
      else r
  | .work k _ _ =>
      if k < n then
        match (s.workers k).working with
        | .donate _ ((j, _) :: _) =>
            if (s.workers j).abort then r
            else { r with stranded := r.stranded.filter (· ≠ j) }
        | _ =>
            { r with
              executed := r.executed + (s.workers k).begun
              stranded := if (s.workers k).strands then k :: r.stranded else r.stranded }
      else r
  | .shutdown =>
      match s.stopping with
      | some k =>
          if k < n ∧ (s.workers k).stopping = .clear then
            { r with
              dropped := r.dropped + (s.workers k).privateQueue.reduceOption +
                (s.workers k).publicQueue.reduceOption }
          else r
      | none => r
  | .release _ | .throws _ => r

/-- Neither the thread of a worker nor anybody else makes it go on. -/
def PoolWorker.AtRest (w : PoolWorker α) : Prop :=
  w.releasing = 0 ∧ (w.working = .exited ∨ w.working = .waiting ∧ w.semaphore = 0)

def PoolWorker.tasks (w : PoolWorker α) : Multiset α :=
  w.privateQueue.reduceOption + w.publicQueue.reduceOption

namespace PoolWorker

variable {w w' : PoolWorker α} {tasks : List (Option α)} {release : Bool}

theorem tasks_enqueueForeign (h : w.enqueueForeign tasks = some (w', release)) :
    w.abort = false ∧ w'.tasks = w.tasks + tasks.reduceOption := by
  unfold enqueueForeign at h
  split at h
  · cases h
  · next ha =>
    refine ⟨Bool.eq_false_iff.mpr ha, ?_⟩
    split at h <;> cases h <;>
      simp [PoolWorker.tasks, List.reduceOption_append, ← Multiset.coe_add, add_assoc]

theorem reduceOption_map_some (tasks : List α) : (tasks.map some).reduceOption = tasks := by
  simp [List.reduceOption]

theorem tasks_enqueueLocal {more : List α} (h : w.enqueueLocal more = some w') :
    w'.tasks = w.tasks + more := by
  unfold enqueueLocal at h
  split at h
  · split at h <;> cases h
    simp only [PoolWorker.tasks, List.reduceOption_append, reduceOption_map_some,
      ← Multiset.coe_add]
    exact add_right_comm _ _ _
  · cases h

theorem tasks_swap : w.swap.tasks = w.tasks := add_comm _ _

theorem tasks_release : w.release.tasks = w.tasks := by
  unfold PoolWorker.release
  split <;> rfl

theorem tasks_thrown : w.thrown.tasks = w.tasks := by
  unfold PoolWorker.thrown
  split <;> rfl

theorem tasks_donate (start count : ℕ) (working : PoolWorking α) :
    w.tasks = PoolWorker.tasks
      { w with privateQueue := blank w.privateQueue start (start + count), working := working } +
        ((cut w.privateQueue start (start + count)).reduceOption : Multiset α) := by
  have hperm := reduceOption_blank_perm (q := w.privateQueue) (Nat.le_add_right start count)
  simp only [PoolWorker.tasks]
  rw [Multiset.coe_eq_coe.mpr hperm, ← Multiset.coe_add]
  abel

theorem tasks_drop {start : ℕ} (h : (w.privateQueue.take start).reduceOption = []) :
    (w.privateQueue.drop start).reduceOption = w.privateQueue.reduceOption := by
  conv_rhs => rw [← List.take_append_drop start w.privateQueue, List.reduceOption_append, h]
  rfl

theorem tasks_balanceWork (size : ℕ) (found : List ℕ) :
    (w.balanceWork size found).tasks = w.tasks := by
  simp only [balanceWork]
  split <;> rfl

theorem tasks_getLast {task : Option α} (h : w.privateQueue.getLast? = some task) :
    w.tasks = PoolWorker.tasks
        { w with privateQueue := w.privateQueue.dropLast, working := .running task } +
      task.toList := by
  have hlast : w.privateQueue = w.privateQueue.dropLast ++ [task] :=
    (List.dropLast_append_getLast? task h).symm
  have htask : [task].reduceOption = task.toList := by cases task <;> rfl
  simp only [PoolWorker.tasks]
  conv_lhs => rw [hlast, List.reduceOption_append, htask]
  rw [← Multiset.coe_add]
  exact add_right_comm _ _ _

theorem tasks_stepWorker {stopped stranded : Prop} (h : w.Rests stopped stranded) (size : ℕ)
    (expired : Bool) (found : List ℕ) :
    w.tasks = (w.stepWorker size expired found).tasks + w.begun := by
  cases hw : w.working with
  | test =>
    simp only [stepWorker, begun, hw]
    split
    · exact (add_zero _).symm
    · split
      · next hn =>
        rw [hn]
        exact (add_zero _).symm
      · next task hn =>
        rw [hn, Option.join_some]
        exact tasks_getLast hn
  | drain | relock =>
    simp only [stepWorker, begun, hw]
    split
    · exact (add_zero _).symm
    · split
      · exact (add_zero _).symm
      · rw [tasks_swap]
        exact (add_zero _).symm
  | waiting =>
    simp only [stepWorker, begun, hw]
    split
    · split <;> exact (add_zero _).symm
    · exact (add_zero _).symm
  | take =>
    simp only [stepWorker, begun, hw]
    split
    · exact (add_zero _).symm
    · rw [tasks_balanceWork]
      exact (add_zero _).symm
  | donate start todo =>
    simp only [Rests, hw] at h
    cases todo with
    | nil =>
      simp only [stepWorker, begun, hw, PoolWorker.tasks, tasks_drop h.2]
      exact (add_zero _).symm
    | cons r todo =>
      simp only [stepWorker, begun, hw]
      exact (add_zero _).symm
  | exited | woken | expired | running | leave =>
    simp only [stepWorker, begun, hw]
    exact (add_zero _).symm

end PoolWorker

namespace ThreadPool

def tasks (n : ℕ) (s : ThreadPool α) : Multiset α := ∑ k ∈ Finset.range n, (s.workers k).tasks

variable {s : ThreadPool α} {n k : ℕ} {w : PoolWorker α}

theorem tasks_setWorker (hk : k < n) :
    (s.setWorker k w).tasks n + (s.workers k).tasks = s.tasks n + w.tasks := by
  have hmem : k ∈ Finset.range n := Finset.mem_range.mpr hk
  have hne : ∀ j ∈ (Finset.range n).erase k,
      ((s.setWorker k w).workers j).tasks = (s.workers j).tasks := by
    intro j hj
    rw [workers_setWorker_of_ne s (Finset.ne_of_mem_erase hj)]
  rw [tasks, tasks, ← Finset.add_sum_erase _ _ hmem, ← Finset.add_sum_erase _ _ hmem,
    Finset.sum_congr rfl hne]
  rw [workers_setWorker_self]
  abel

theorem tasks_setWorker_of_add (hk : k < n) {more : Multiset α}
    (h : w.tasks = (s.workers k).tasks + more) :
    (s.setWorker k w).tasks n = s.tasks n + more := by
  have hset := tasks_setWorker (s := s) (w := w) hk
  rw [h, add_comm (s.workers k).tasks, ← add_assoc] at hset
  exact add_right_cancel hset

theorem tasks_of_setWorker_add (hk : k < n) {less : Multiset α}
    (h : (s.workers k).tasks = w.tasks + less) :
    s.tasks n = (s.setWorker k w).tasks n + less := by
  have hset := tasks_setWorker (s := s) (w := w) hk
  rw [h, add_comm w.tasks, ← add_assoc] at hset
  exact (add_right_cancel hset).symm

/-- What holds of the pool in every state it comes to. `shutdown` has dealt with the workers in
front of the one that it is at. -/
structure Reached (n : ℕ) (s : ThreadPool α) (r : PoolLog α) : Prop where
  holds : ∀ k < n, (s.workers k).Holds (fun j => j < n ∧ j ≠ k)
    (fun j => (s.workers j).abort = true) (s.stopping ≠ none) (k ∈ r.stranded)
  done : ∀ k, s.stopping = some k → k ≤ n ∧ ∀ j < k, (s.workers j).stopping = .done
  conserved : r.executed + r.dropped + s.tasks n = r.accepted
  kept : s.stopping = none → r.dropped = 0

variable {s' : ThreadPool α} {r r' : PoolLog α} {tasks : List (Option α)}

theorem later_setWorker (hlater : (s.workers k).Later w) (j : ℕ) :
    (s.workers j).Later ((s.setWorker k w).workers j) := by
  by_cases hjk : j = k
  · subst hjk
    rwa [workers_setWorker_self]
  · rw [workers_setWorker_of_ne s hjk]
    exact PoolWorker.later_of_eq rfl

theorem Reached.setWorker (h : s.Reached n r) (hk : k < n)
    (hw : w.Holds (fun j => j < n ∧ j ≠ k) (fun j => (s.workers j).abort = true)
      (s.stopping ≠ none) (k ∈ r'.stranded) ∧ (s.workers k).Later w)
    (hstranded : ∀ j, j ≠ k → (j ∈ r.stranded ↔ j ∈ r'.stranded))
    (hconserved : r'.executed + r'.dropped + (s.setWorker k w).tasks n = r'.accepted)
    (hkept : s.stopping = none → r'.dropped = 0) : (s.setWorker k w).Reached n r' := by
  have hlater := later_setWorker hw.2
  refine ⟨fun j hj => ?_, fun i hi => ⟨(h.done i hi).1, fun j hj => ?_⟩, hconserved, hkept⟩
  · have habort := fun i => (hlater i).abort
    by_cases hjk : j = k
    · subst hjk
      rw [workers_setWorker_self]
      exact hw.1.mono habort id id
    · rw [workers_setWorker_of_ne s hjk]
      exact (h.holds j hj).mono habort id (hstranded j hjk).mp
  · exact (hlater j).done ((h.done i hi).2 j hj)

theorem push_eq_some (h : s.push k tasks = some s') :
    ∃ w release, (s.workers k).enqueueForeign tasks = some (w, release) ∧
      s' = s.setWorker k (w.owing release) := by
  obtain ⟨⟨w, release⟩, hw, rfl⟩ := Option.map_eq_some_iff.mp h
  exact ⟨w, release, hw, rfl⟩

/-- What a worker accepts ends its being stranded. -/
theorem Reached.push (h : s.Reached n r) (hk : k < n) (heq : s.push k tasks = some s') :
    (s.workers k).abort = false ∧
      s'.Reached n
        { r with
          accepted := r.accepted + tasks.reduceOption
          stranded := r.stranded.filter (· ≠ k) } := by
  obtain ⟨w, release, hw, rfl⟩ := push_eq_some heq
  obtain ⟨ha, htasks⟩ := PoolWorker.tasks_enqueueForeign hw
  obtain ⟨hholds, hlater⟩ := (h.holds k hk).enqueueForeign hw
  refine ⟨ha, h.setWorker hk ⟨hholds.mono (fun _ => id) id False.elim, hlater⟩ ?_ ?_ h.kept⟩
  · intro j hj
    simp [hj]
  · have hset : (s.setWorker k (w.owing release)).tasks n = s.tasks n + tasks.reduceOption :=
      tasks_setWorker_of_add hk htasks
    rw [hset, ← add_assoc]
    exact congrArg (· + (tasks.reduceOption : Multiset α)) h.conserved

theorem abort_of_push_eq_none (h : s.push k tasks = none) : (s.workers k).abort = true := by
  rw [ThreadPool.push, Option.map_eq_none_iff] at h
  unfold PoolWorker.enqueueForeign at h
  split at h
  · assumption
  · split at h <;> cases h

theorem Reached.setWorker_same (h : s.Reached n r) (hk : k < n)
    (hw : w.Holds (fun j => j < n ∧ j ≠ k) (fun j => (s.workers j).abort = true)
      (s.stopping ≠ none) (k ∈ r.stranded) ∧ (s.workers k).Later w)
    (htasks : w.tasks = (s.workers k).tasks) : (s.setWorker k w).Reached n r := by
  have hset : (s.setWorker k w).tasks n = s.tasks n + 0 :=
    tasks_setWorker_of_add hk (by rw [htasks, add_zero])
  refine h.setWorker hk hw (fun _ _ => Iff.rfl) ?_ h.kept
  rw [hset, add_zero]
  exact h.conserved

theorem Reached.donate {start j count : ℕ} {todo : List (ℕ × ℕ)} (h : s.Reached n r)
    (hk : k < n) (hw : (s.workers k).working = .donate start ((j, count) :: todo))
    (expired : Bool) (found : List ℕ) :
    (s.work n k expired found).Reached n (r.note n s (.work k expired found)) := by
  obtain ⟨hj, hne⟩ := (h.holds k hk).target hw
  simp only [ThreadPool.work, PoolLog.note, hw, if_pos hk]
  split
  · next hpush =>
    have ha := abort_of_push_eq_none hpush
    rw [if_pos ha]
    have hrefused := (h.holds k hk).refused hw ha ((h.holds j hj).stops.of_abort ha)
    exact h.setWorker_same hk ⟨hrefused, PoolWorker.later_of_eq rfl⟩ rfl
  · next s' hpush =>
    obtain ⟨ha, h'⟩ := h.push hj hpush
    rw [if_neg (by simp [ha])]
    obtain ⟨wj, release, hwj, rfl⟩ := push_eq_some hpush
    have hsame : (s.setWorker j (wj.owing release)).workers k = s.workers k :=
      workers_setWorker_of_ne s (Ne.symm hne) _
    have hj' : ¬ (((s.setWorker j (wj.owing release)).workers j).abort = true) := by
      rw [workers_setWorker_self, PoolWorker.abort_enqueueForeign hwj, ha]
      exact Bool.false_ne_true
    have hholds := (h'.holds k hk).donate (hsame ▸ hw) hj'
    rw [hsame] at hholds
    have hlater : ((s.setWorker j (wj.owing release)).workers k).Later
        { s.workers k with
          privateQueue := blank (s.workers k).privateQueue start (start + count)
          working := .donate (start + count) todo } := by
      rw [hsame]
      exact PoolWorker.later_of_eq rfl
    refine h'.setWorker hk ⟨hholds, hlater⟩ (fun _ _ => Iff.rfl) ?_ h.kept
    have htasks := PoolWorker.tasks_donate (w := s.workers k) start count
      (.donate (start + count) todo)
    rw [← hsame] at htasks
    have hset := tasks_of_setWorker_add hk htasks
    have hconserved := h'.conserved
    rw [hset, ← add_assoc, hsame] at hconserved
    exact add_right_cancel hconserved

theorem Reached.stepWorker (h : s.Reached n r) (hk : k < n) (expired : Bool) {found : List ℕ}
    (hfound : ∀ j ∈ found, j < n ∧ j ≠ k) :
    (s.setWorker k ((s.workers k).stepWorker n expired found)).Reached n
      { r with
        executed := r.executed + (s.workers k).begun
        stranded := if (s.workers k).strands then k :: r.stranded else r.stranded } := by
  obtain ⟨hholds, hlater⟩ := (h.holds k hk).stepWorker n expired hfound
  have htasks := tasks_of_setWorker_add hk
    (PoolWorker.tasks_stepWorker (h.holds k hk).rests n expired found)
  refine h.setWorker hk ⟨hholds.mono (fun _ => id) id ?_, hlater⟩ ?_ ?_ h.kept
  · rintro (hm | ⟨hw, hne⟩)
    · simp only
      split
      · exact List.mem_cons_of_mem k hm
      · exact hm
    · have hstrands : (s.workers k).strands = true := by simp [PoolWorker.strands, hw, hne]
      simp [hstrands]
  · intro j hj
    simp only
    split
    · rw [List.mem_cons, or_iff_right hj]
    · rfl
  · have hconserved := h.conserved
    rw [htasks] at hconserved
    simp only [← hconserved]
    abel

theorem Reached.work (h : s.Reached n r) (hk : k < n) (expired : Bool) (found : List ℕ) :
    (s.work n k expired found).Reached n (r.note n s (.work k expired found)) := by
  have hfound : ∀ j ∈ found.filter fun j => j < n ∧ j ≠ k, j < n ∧ j ≠ k := by simp
  have hstep := h.stepWorker hk expired hfound
  cases hw : (s.workers k).working with
  | donate start todo =>
    cases todo with
    | nil =>
      simp only [ThreadPool.work, PoolLog.note, hw, if_pos hk]
      exact hstep
    | cons p todo => exact h.donate hk hw expired found
  | _ =>
    simp only [ThreadPool.work, PoolLog.note, hw, if_pos hk]
    exact hstep

theorem Reached.stop (h : s.Reached n r) {i : ℕ} (hi : i ≤ n)
    (hdone : ∀ j < i, (s.workers j).stopping = .done) :
    Reached n { s with stopping := some i } r where
  holds j hj := (h.holds j hj).mono (fun _ => id) (fun _ => Option.some_ne_none i) id
  done := by
    rintro _ ⟨⟩
    exact ⟨hi, hdone⟩
  conserved := h.conserved
  kept hs := absurd hs (Option.some_ne_none i)

theorem Reached.stepShutdown (h : s.Reached n r) (hs : s.stopping ≠ none) (hk : k < n) :
    (s.setWorker k (s.workers k).stepShutdown).Reached n
      (if k < n ∧ (s.workers k).stopping = .clear then
        { r with
          dropped := r.dropped + (s.workers k).privateQueue.reduceOption +
            (s.workers k).publicQueue.reduceOption }
      else r) := by
  have hholds := (h.holds k hk).stepShutdown hs
  by_cases hclear : (s.workers k).stopping = .clear
  · rw [if_pos ⟨hk, hclear⟩]
    have htasks : (s.workers k).tasks = (s.workers k).stepShutdown.tasks +
        ((s.workers k).privateQueue.reduceOption +
          (s.workers k).publicQueue.reduceOption : Multiset α) := by
      simp [PoolWorker.stepShutdown, hclear, PoolWorker.tasks]
    refine h.setWorker hk hholds (fun _ _ => Iff.rfl) ?_ fun hn => absurd hn hs
    have hconserved := h.conserved
    rw [tasks_of_setWorker_add hk htasks] at hconserved
    simp only [← hconserved]
    abel
  · rw [if_neg fun h => hclear h.2]
    refine h.setWorker_same hk hholds ?_
    unfold PoolWorker.stepShutdown
    split <;> (try split) <;> first | rfl | contradiction

theorem Reached.shutdown (h : s.Reached n r) :
    (s.shutdown n).Reached n (r.note n s .shutdown) := by
  cases hs : s.stopping with
  | none =>
    simp only [ThreadPool.shutdown, PoolLog.note, hs]
    exact h.stop (Nat.zero_le n) fun j hj => absurd hj (Nat.not_lt_zero j)
  | some k =>
    simp only [ThreadPool.shutdown, PoolLog.note, hs]
    split
    · next hk =>
      split
      · next hd =>
        rw [if_neg (by simp [hd])]
        refine h.stop hk fun j hj => ?_
        rcases Nat.lt_succ_iff_lt_or_eq.mp hj with hj | rfl
        · exact (h.done k hs).2 j hj
        · exact hd
      · exact h.stepShutdown (by simp [hs]) hk
    · next hk =>
      rw [if_neg fun h => hk h.1]
      exact h

theorem Reached.step (h : s.Reached n r) (op : PoolOp α) :
    ((threadPool α n).step s op).1.Reached n (r.note n s op) := by
  cases op with
  | enqueue k tasks =>
    simp only [threadPool, PoolLog.note]
    split
    · next hk =>
      split
      · next hpush =>
        rw [if_neg (by simp [abort_of_push_eq_none hpush])]
        exact h
      · next s' hpush =>
        obtain ⟨ha, h'⟩ := h.push hk hpush
        rw [if_pos ⟨hk, ha⟩]
        rwa [PoolWorker.reduceOption_map_some] at h'
    · next hk =>
      rw [if_neg fun h => hk h.1]
      exact h
  | release k =>
    simp only [threadPool, PoolLog.note]
    split
    · next hk => exact h.setWorker_same hk (h.holds k hk).release PoolWorker.tasks_release
    · exact h
  | work k expired found =>
    simp only [threadPool]
    split
    · next hk => exact h.work hk expired found
    · next hk =>
      rw [PoolLog.note, if_neg hk]
      exact h
  | enqueueLocal k tasks =>
    simp only [threadPool, PoolLog.note]
    split
    · next hk =>
      split
      · next heq =>
        rw [if_neg (by simp [heq])]
        exact h
      · next w heq =>
        rw [if_pos ⟨hk, by simp [heq]⟩]
        refine h.setWorker hk ((h.holds k hk).enqueueLocal heq) (fun _ _ => Iff.rfl) ?_ h.kept
        rw [tasks_setWorker_of_add hk (PoolWorker.tasks_enqueueLocal heq), ← add_assoc]
        exact congrArg (· + (tasks : Multiset α)) h.conserved
    · next hk =>
      rw [if_neg fun h => hk h.1]
      exact h
  | throws k =>
    simp only [threadPool, PoolLog.note]
    split
    · next hk =>
      exact h.setWorker_same hk.1 ((h.holds k hk.1).thrown hk.2) PoolWorker.tasks_thrown
    · exact h
  | shutdown => exact h.shutdown

theorem reached_new : (new : ThreadPool α).Reached n ⟨0, 0, 0, []⟩ := by
  refine ⟨fun _ _ => PoolWorker.holds_new, fun k hk => absurd hk (Option.some_ne_none k).symm, ?_,
    fun _ => rfl⟩
  simp [tasks, new, PoolWorker.tasks, PoolWorker.new]

theorem reached_run (n : ℕ) (ops : List (PoolOp α)) :
    let r := (((threadPool α n).noting (PoolLog.note n)).run (.new, ⟨0, 0, 0, []⟩) ops).1
    r.1.Reached n r.2 :=
  ((threadPool α n).noting (PoolLog.note n)).run_keeps (P := fun r => r.1.Reached n r.2)
    (fun _ op h => h.step op) reached_new ops

theorem Reached.atRest (h : s.Reached n r) (hs : s.stopping = none) (hk : k < n)
    (hrest : (s.workers k).AtRest) :
    (s.workers k).privateQueue = [] ∧ ((s.workers k).publicQueue ≠ [] → k ∈ r.stranded) := by
  have hrests := (h.holds k hk).rests
  obtain ⟨hreleasing, hw | ⟨hw, hsemaphore⟩⟩ := hrest
  · simp only [PoolWorker.Rests, hw] at hrests
    exact hrests.2 (not_not_intro hs)
  · simp only [PoolWorker.Rests, hw] at hrests
    refine ⟨hrests.2.1 (not_not_intro hs), fun hne => ?_⟩
    have hpos := (hrests.2.2.1 hne).2
    omega

theorem Reached.executed_of_atRest (h : s.Reached n r) (hs : s.stopping = none)
    (hrest : ∀ k < n, (s.workers k).AtRest) :
    r.executed + ∑ k ∈ Finset.range n, ((s.workers k).publicQueue.reduceOption : Multiset α) =
      r.accepted := by
  have htasks : s.tasks n =
      ∑ k ∈ Finset.range n, ((s.workers k).publicQueue.reduceOption : Multiset α) := by
    refine Finset.sum_congr rfl fun k hk => ?_
    have hp := (h.atRest hs (Finset.mem_range.mp hk) (hrest k (Finset.mem_range.mp hk))).1
    rw [PoolWorker.tasks, hp]
    exact zero_add _
  rw [← htasks, ← h.conserved, h.kept hs, add_zero]

theorem Reached.join (h : s.Reached n r) (hk : k < n) (hj : (s.workers k).stopping = .join) :
    ((s.workers k).working = .waiting → 0 < (s.workers k).semaphore) ∧
      ((s.workers k).working = .woken → (s.workers k).taskFound = true) := by
  have hrests := (h.holds k hk).rests
  refine ⟨fun hw => ?_, fun hw => ?_⟩ <;> simp only [PoolWorker.Rests, hw] at hrests
  · exact hrests.2.2.2.2 hj
  · exact hrests.2.2.2 (.inr hj)

/-- `shutdown` returns when all threads have ended and nothing is left in the queues. -/
theorem Reached.finished (h : s.Reached n r) (hs : s.stopping = some n) :
    (∀ k < n, (s.workers k).working = .exited ∧
      (s.workers k).publicQueue = [] ∧ (s.workers k).privateQueue = []) ∧
      r.executed + r.dropped = r.accepted := by
  have hdone : ∀ k < n, (s.workers k).working = .exited ∧
      (s.workers k).publicQueue = [] ∧ (s.workers k).privateQueue = [] := by
    intro k hk
    have hk' := (h.done n hs).2 k hk
    exact ⟨(h.holds k hk).stops.exited (.inr hk'), (h.holds k hk).stops.cleared hk'⟩
  have htasks : s.tasks n = 0 := by
    refine Finset.sum_eq_zero fun k hk => ?_
    obtain ⟨-, hpublic, hprivate⟩ := hdone k (Finset.mem_range.mp hk)
    rw [PoolWorker.tasks, hpublic, hprivate]
    rfl
  refine ⟨hdone, ?_⟩
  have hconserved := h.conserved
  rwa [htasks, add_zero] at hconserved

end ThreadPool

section Strands

variable {n : ℕ}

/-- The pool with all threads ended and tasks in the public queue of the first worker. -/
def ThreadPool.ended (tasks : List (Option α)) : ThreadPool α :=
  ThreadPool.new.setWorker 0 ⟨tasks, [], [], 1, 0, true, true, .exited, .idle⟩

def PoolOp.Goes : PoolOp α → Prop
  | .release _ | .work _ _ _ | .enqueueLocal _ _ | .throws _ => True
  | .enqueue _ _ | .shutdown => False

theorem ThreadPool.exited_ended (tasks : List (Option α)) (k : ℕ) :
    ((ended tasks).workers k).working = .exited ∧ ((ended tasks).workers k).releasing = 0 := by
  by_cases hk : k = 0
  · subst hk
    exact ⟨rfl, rfl⟩
  · simp [ended, setWorker, Function.update_of_ne hk, new, PoolWorker.new]

/-- No thread that is there already takes the tasks of a stranded worker. -/
theorem ThreadPool.step_ended (tasks : List (Option α)) {op : PoolOp α} (hop : op.Goes)
    (r : PoolLog α) :
    (((threadPool α n).noting (PoolLog.note n)).step (ended tasks, r) op).1 =
      (ended tasks, r) := by
  have hset : ∀ k, (ended tasks).setWorker k ((ended tasks).workers k) = ended tasks :=
    fun k => by simp [setWorker]
  cases op with
  | enqueue | shutdown => exact hop.elim
  | release k =>
    have hk := (exited_ended tasks k).2
    simp [Machine.noting, threadPool, PoolLog.note, PoolWorker.release, hk, hset]
  | work k expired found =>
    have hk := (exited_ended tasks k).1
    simp [Machine.noting, threadPool, PoolLog.note, work, PoolWorker.stepWorker, PoolWorker.begun,
      PoolWorker.strands, hk, hset]
  | enqueueLocal k more =>
    have hk := (exited_ended tasks k).1
    simp [Machine.noting, threadPool, PoolLog.note, PoolWorker.enqueueLocal, hk]
  | throws k =>
    have hk := (exited_ended tasks k).1
    simp [Machine.noting, threadPool, PoolLog.note, PoolWorker.thrown, hk, hset]

/-- The worker runs out of time, and its thread ends although a task has come in between. -/
def strandingOps (a b : α) : List (PoolOp α) :=
  [.enqueue 0 [a]] ++ List.replicate 7 (.work 0 false []) ++
    [.work 0 true [], .enqueue 0 [b], .release 0, .work 0 false []]

theorem run_strandingOps (a b : α) :
    (((threadPool α (n + 1)).noting (PoolLog.note (n + 1))).run (.new, ⟨0, 0, 0, []⟩)
      (strandingOps a b)).1 = (.ended [some b], ⟨{a, b}, {a}, 0, [0]⟩) := by
  simp [strandingOps, List.replicate, Machine.noting, threadPool, PoolLog.note, ThreadPool.push,
    ThreadPool.work, ThreadPool.setWorker, ThreadPool.new, ThreadPool.ended, PoolWorker.new,
    PoolWorker.enqueueForeign, PoolWorker.owing, PoolWorker.abort, PoolWorker.stepWorker,
    PoolWorker.swap, PoolWorker.begun, PoolWorker.strands, PoolWorker.atomicAbort,
    PoolWorker.release, PoolWorker.exit, PoolWorker.balanceWork]

end Strands

/-- A task can be left in the queue of a worker whose thread has ended, in a pool that nobody has
stopped: none of the threads runs it before something else is enqueued. -/
theorem threadPool_strands (n : ℕ) (a b : α) :
    ∃ ops : List (PoolOp α), .shutdown ∉ ops ∧
      ∀ more : List (PoolOp α), (∀ op ∈ more, op.Goes) →
        let r := (((threadPool α (n + 1)).noting (PoolLog.note (n + 1))).run
          (.new, ⟨0, 0, 0, []⟩) (ops ++ more)).1
        r.1.stopping = none ∧ (r.1.workers 0).working = .exited ∧
          (r.1.workers 0).publicQueue = [some b] ∧ 0 ∈ r.2.stranded ∧
          r.2.accepted = {a, b} ∧ r.2.executed = {a} := by
  refine ⟨strandingOps a b, by simp [strandingOps], fun more hmore => ?_⟩
  rw [Machine.run_append, run_strandingOps]
  have hfixed := ((threadPool α (n + 1)).noting (PoolLog.note (n + 1))).run_invariant
    (P := fun r => r = (.ended [some b], ⟨{a, b}, {a}, 0, [0]⟩)) (s := (.ended [some b], _))
    (fun r op h hop => by rw [h]; exact ThreadPool.step_ended [some b] hop _) rfl
    (Machine.along_of_forall_mem _ hmore)
  rw [hfixed]
  exact ⟨rfl, rfl, rfl, List.mem_singleton_self 0, rfl, rfl⟩

end Plain.Concurrency
