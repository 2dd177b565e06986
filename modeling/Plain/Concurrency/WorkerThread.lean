import Plain.Foundation.Machine
import Mathlib.Data.List.Perm.Subperm
import Mathlib.Data.List.ReduceOption

/-! # The worker thread executor

Threads put tasks into a public queue under a lock; one worker takes the whole queue at a time
and runs what it has taken. The worker sleeps on a semaphore, which is released by whoever finds
the queue empty. A task that enqueues to its own executor puts the new tasks into the private
queue, and what is left of them, which does nothing when it is run, into the public one. What is
done under the lock is one step.
-/

namespace Plain.Concurrency

variable {α : Type*}

/-- What the worker does next. A task that has been moved from is `none`. -/
inductive Working (α : Type*) where
  | unstarted
  | drain
  | acquire
  | relock
  | take
  | test (task : Option α)
  | running (task : Option α)
  | forward (task : Option α) (count : ℕ)
  | post (task : Option α)
  | exited
  deriving DecidableEq, Repr

inductive Stopping where
  | idle
  | lock
  | store
  | release
  | join
  | clear
  | done
  deriving DecidableEq, Repr

/-- The executor. So many threads are `releasing` as are between the lock and the release of the
semaphore. The flags that `shutdown` sets are told by how far it is. -/
structure WorkerThread (α : Type*) where
  publicQueue : List (Option α)
  privateQueue : List (Option α)
  semaphore : ℕ
  releasing : ℕ
  working : Working α
  stopping : Stopping
  deriving DecidableEq

/-- A thread enqueues tasks or goes on to release the semaphore; the worker makes its next step;
the running task enqueues tasks; a thread other than the worker makes the next step of
`shutdown`. -/
inductive WorkerOp (α : Type*) where
  | enqueue (tasks : List α)
  | release
  | work
  | enqueueLocal (tasks : List α)
  | shutdown
  deriving DecidableEq, Repr

namespace WorkerThread

def new : WorkerThread α := ⟨[], [], 0, 0, .unstarted, .idle⟩

def abort (s : WorkerThread α) : Bool :=
  match s.stopping with
  | .idle | .lock => false
  | .store | .release | .join | .clear | .done => true

def privateAbort (s : WorkerThread α) : Bool :=
  match s.stopping with
  | .idle | .lock | .store => false
  | .release | .join | .clear | .done => true

/-- What `enqueue_foreign` does under the lock, and whether the semaphore is to be released
behind it. A stopped executor throws. -/
def enqueueForeign (s : WorkerThread α) (tasks : List (Option α)) :
    Option (WorkerThread α × Bool) :=
  if s.abort then none
  else
    match s.working with
    | .unstarted =>
        some ({ s with publicQueue := s.publicQueue ++ tasks, working := .drain }, false)
    | _ => some ({ s with publicQueue := s.publicQueue ++ tasks }, s.publicQueue.isEmpty)

/-- What the worker does under the lock: it leaves, goes to sleep, or takes the public queue. -/
def locked (s : WorkerThread α) : WorkerThread α :=
  if s.abort then { s with working := .exited }
  else if s.publicQueue.isEmpty then { s with working := .acquire }
  else
    { s with
      privateQueue := s.publicQueue
      publicQueue := s.privateQueue
      working := .take }

def stepWorker (s : WorkerThread α) : WorkerThread α :=
  match s.working with
  | .unstarted | .exited => s
  | .drain | .relock => s.locked
  | .acquire =>
      match s.semaphore with
      | 0 => s
      | n + 1 => { s with semaphore := n, working := .relock }
  | .take =>
      match s.privateQueue with
      | [] => { s with working := .drain }
      | task :: queue => { s with privateQueue := queue, working := .test task }
  | .test task =>
      if s.privateAbort then { s with working := .exited } else { s with working := .running task }
  | .running _ => { s with working := .take }
  | .forward task count =>
      -- the tasks have been moved from, and go to the public queue once more
      match s.enqueueForeign (List.replicate count none) with
      | none => { s with working := .running task }
      | some (s', true) => { s' with working := .post task }
      | some (s', false) => { s' with working := .running task }
  | .post task => { s with semaphore := s.semaphore + 1, working := .running task }

/-- The tasks a running task enqueues, and whether it may. -/
def enqueueLocal (s : WorkerThread α) (tasks : List α) : WorkerThread α × Bool :=
  match s.working with
  | .running task =>
      if s.privateAbort then (s, false)
      else
        ({ s with
          privateQueue := s.privateQueue ++ tasks.map some
          working := .forward task tasks.length }, true)
  | _ => (s, false)

def stepShutdown (s : WorkerThread α) : WorkerThread α :=
  match s.stopping with
  | .idle => { s with stopping := .lock }
  | .lock => { s with stopping := .store }
  | .store => { s with stopping := .release }
  | .release => { s with semaphore := s.semaphore + 1, stopping := .join }
  | .join =>
      match s.working with
      | .unstarted | .exited => { s with stopping := .clear }
      | _ => s
  | .clear => { s with publicQueue := [], privateQueue := [], stopping := .done }
  | .done => s

end WorkerThread

/-- The executor under any interleaving. The answer to a call is whether it has not thrown. -/
def workerThread (α : Type*) : Machine (WorkerThread α) (WorkerOp α) Bool where
  step s
    | .enqueue tasks =>
        match s.enqueueForeign (tasks.map some) with
        | none => (s, false)
        | some (s', release) =>
            ({ s' with releasing := s'.releasing + if release then 1 else 0 }, true)
    | .release =>
        match s.releasing with
        | 0 => (s, true)
        | n + 1 => ({ s with releasing := n, semaphore := s.semaphore + 1 }, true)
    | .work => (s.stepWorker, true)
    | .enqueueLocal tasks => s.enqueueLocal tasks
    | .shutdown => (s.stepShutdown, true)

namespace WorkerThread

def hand (s : WorkerThread α) : List (Option α) :=
  match s.working with
  | .test task => [task]
  | _ => []

def taken (s : WorkerThread α) : List α := (s.hand ++ s.privateQueue).reduceOption

def pending (s : WorkerThread α) : List α := s.taken ++ s.publicQueue.reduceOption

end WorkerThread

/-- The tasks that were accepted, in the order of the calls and in the order in which they are
due, and those that were run. -/
structure TaskLog (α : Type*) where
  accepted : List α
  due : List α
  executed : List α
  deriving DecidableEq, Repr

/-- The log after one more step. Tasks of a running task are due in front of the public queue. -/
def TaskLog.note (s : WorkerThread α) (r : TaskLog α) : WorkerOp α → TaskLog α
  | .enqueue tasks =>
      if s.abort then r
      else { r with accepted := r.accepted ++ tasks, due := r.due ++ tasks }
  | .enqueueLocal tasks =>
      match s.working with
      | .running _ =>
          if s.privateAbort then r
          else
            { r with
              accepted := r.accepted ++ tasks
              due := r.executed ++ s.taken ++ tasks ++ s.publicQueue.reduceOption }
      | _ => r
  | .work =>
      match s.working with
      | .test task =>
          if s.privateAbort then r else { r with executed := r.executed ++ task.toList }
      | _ => r
  | .release | .shutdown => r

namespace WorkerThread

def Rests (s : WorkerThread α) : Prop :=
  match s.working with
  | .unstarted => s.privateQueue = [] ∧ s.publicQueue = []
  | .drain | .relock => s.privateQueue = []
  | .acquire =>
      s.privateQueue = [] ∧ (s.publicQueue ≠ [] → 0 < s.semaphore + s.releasing) ∧
        (s.stopping = .join → 0 < s.semaphore)
  | .exited => s.abort = true
  | .take | .test _ | .running _ | .forward _ _ | .post _ => True

def Stops (s : WorkerThread α) : Prop :=
  match s.stopping with
  | .idle | .lock | .store | .release | .join => True
  | .clear => s.working = .unstarted ∨ s.working = .exited
  | .done =>
      (s.working = .unstarted ∨ s.working = .exited) ∧ s.publicQueue = [] ∧ s.privateQueue = []

section Steps

variable {s s' : WorkerThread α}

theorem enqueueForeign_eq_some {tasks : List (Option α)} {release : Bool}
    (h : s.enqueueForeign tasks = some (s', release)) :
    s.abort = false ∧
      (s.working = .unstarted ∧ release = false ∧
          s' = { s with publicQueue := s.publicQueue ++ tasks, working := .drain } ∨
        s.working ≠ .unstarted ∧ release = s.publicQueue.isEmpty ∧
          s' = { s with publicQueue := s.publicQueue ++ tasks }) := by
  unfold enqueueForeign at h
  split at h
  · cases h
  · next habort =>
    refine ⟨by simpa using habort, ?_⟩
    split at h
    · next hw =>
      cases h
      exact .inl ⟨hw, rfl, rfl⟩
    · next hw =>
      cases h
      exact .inr ⟨hw, rfl, rfl⟩

theorem abort_eq_false_iff : s.abort = false ↔ s.stopping = .idle ∨ s.stopping = .lock := by
  unfold abort
  cases s.stopping <;> simp

theorem stops_of_not_abort (h : s.abort = false) : s.Stops := by
  unfold Stops
  rcases abort_eq_false_iff.mp h with h | h <;> rw [h] <;> trivial

theorem Rests.push (h : s.Rests) (hw : s.working ≠ .unstarted) (tasks : List (Option α)) :
    Rests { s with
      publicQueue := s.publicQueue ++ tasks
      releasing := s.releasing + if s.publicQueue.isEmpty then 1 else 0 } := by
  unfold Rests at h ⊢
  cases hw' : s.working with
  | unstarted => exact absurd hw' hw
  | acquire =>
    simp only [hw'] at h ⊢
    refine ⟨h.1, fun _ => ?_, h.2.2⟩
    split
    · omega
    · next hne =>
      have hpos := h.2.1 (by simpa using hne)
      omega
  | drain | relock | exited =>
    simp only [hw'] at h ⊢
    exact h
  | take | test | running | forward | post => trivial

theorem Rests.enqueue (h : s.Rests) (tasks : List α) :
    ((workerThread α).step s (.enqueue tasks)).1.Rests := by
  simp only [workerThread]
  split
  · exact h
  · next s' release heq =>
    obtain ⟨-, ⟨hw, rfl, rfl⟩ | ⟨hw, rfl, rfl⟩⟩ := enqueueForeign_eq_some heq
    · simp only [Rests, hw] at h
      exact h.1
    · exact h.push hw _

theorem Stops.enqueue (h : s.Stops) (tasks : List α) :
    ((workerThread α).step s (.enqueue tasks)).1.Stops := by
  simp only [workerThread]
  split
  · exact h
  · next s' release heq =>
    obtain ⟨ha, ⟨-, -, rfl⟩ | ⟨-, -, rfl⟩⟩ := enqueueForeign_eq_some heq
    · exact stops_of_not_abort ha
    · exact stops_of_not_abort ha

theorem Rests.release (h : s.Rests) : ((workerThread α).step s .release).1.Rests := by
  simp only [workerThread]
  split
  · exact h
  · next n hn =>
    unfold Rests at h ⊢
    cases hw : s.working with
    | acquire =>
      simp only [hw] at h ⊢
      refine ⟨h.1, fun hne => ?_, fun hj => ?_⟩
      · have hpos := h.2.1 hne
        omega
      · have hpos := h.2.2 hj
        omega
    | unstarted | drain | relock | exited =>
      simp only [hw] at h ⊢
      exact h
    | take | test | running | forward | post => trivial

theorem Stops.release (h : s.Stops) : ((workerThread α).step s .release).1.Stops := by
  simp only [workerThread]
  split <;> exact h

theorem Rests.locked (hp : s.privateQueue = []) : s.locked.Rests := by
  unfold WorkerThread.locked
  split
  · next ha => exact ha
  · next ha =>
    have ha' := abort_eq_false_iff.mp (Bool.eq_false_iff.mpr ha)
    split
    · next he =>
      refine ⟨hp, fun hne => absurd (List.isEmpty_iff.mp he) hne, fun hj => ?_⟩
      rcases ha' with ha' | ha' <;> cases hj.symm.trans ha'
    · trivial

theorem abort_of_privateAbort (h : s.privateAbort = true) : s.abort = true := by
  unfold privateAbort at h
  unfold abort
  cases hs : s.stopping <;> simp [hs] at h ⊢

theorem Rests.stepWorker (h : s.Rests) : s.stepWorker.Rests := by
  cases hw : s.working with
  | unstarted | exited =>
    simp only [WorkerThread.stepWorker, hw]
    exact h
  | drain | relock =>
    simp only [WorkerThread.stepWorker, hw]
    simp only [Rests, hw] at h
    exact .locked h
  | acquire =>
    simp only [WorkerThread.stepWorker, hw]
    split
    · exact h
    · simp only [Rests, hw] at h
      exact h.1
  | take =>
    simp only [WorkerThread.stepWorker, hw]
    split
    · next hq => exact hq
    · trivial
  | test task =>
    simp only [WorkerThread.stepWorker, hw]
    split
    · next ha => exact abort_of_privateAbort ha
    · trivial
  | running | post =>
    simp only [WorkerThread.stepWorker, hw]
    trivial
  | forward task count =>
    simp only [WorkerThread.stepWorker, hw]
    split <;> trivial

theorem Stops.working (h : s.Stops) (hs : s.stopping = .clear ∨ s.stopping = .done) :
    s.working = .unstarted ∨ s.working = .exited := by
  rcases hs with hs | hs <;> simp only [Stops, hs] at h
  · exact h
  · exact h.1

theorem stops_of_ne (hc : s.stopping ≠ .clear) (hd : s.stopping ≠ .done) : s.Stops := by
  unfold Stops
  cases hs : s.stopping with
  | clear => exact absurd hs hc
  | done => exact absurd hs hd
  | idle | lock | store | release | join => trivial

theorem stopping_stepWorker : s.stepWorker.stopping = s.stopping := by
  cases hw : s.working with
  | unstarted | exited | running | post => simp only [WorkerThread.stepWorker, hw]
  | drain | relock =>
    simp only [WorkerThread.stepWorker, hw, WorkerThread.locked]
    split
    · rfl
    · split <;> rfl
  | acquire | take | test =>
    simp only [WorkerThread.stepWorker, hw]
    split <;> rfl
  | forward task count =>
    simp only [WorkerThread.stepWorker, hw]
    split
    · rfl
    all_goals
      next heq =>
      obtain ⟨-, ⟨-, -, rfl⟩ | ⟨-, -, rfl⟩⟩ := enqueueForeign_eq_some heq <;> rfl

theorem Stops.stepWorker (h : s.Stops) : s.stepWorker.Stops := by
  by_cases hs : s.stopping = .clear ∨ s.stopping = .done
  · have hstep : s.stepWorker = s := by
      rcases h.working hs with hw | hw <;> simp only [WorkerThread.stepWorker, hw]
    rwa [hstep]
  · rw [not_or, ← stopping_stepWorker] at hs
    exact stops_of_ne hs.1 hs.2

theorem Rests.enqueueLocal (h : s.Rests) (tasks : List α) : (s.enqueueLocal tasks).1.Rests := by
  unfold WorkerThread.enqueueLocal
  split
  · split
    · exact h
    · trivial
  · exact h

theorem Stops.enqueueLocal (h : s.Stops) (tasks : List α) : (s.enqueueLocal tasks).1.Stops := by
  unfold WorkerThread.enqueueLocal
  split
  · next hw =>
    split
    · exact h
    · apply stops_of_ne
      · intro hs
        rcases h.working (.inl hs) with hw' | hw' <;> cases hw.symm.trans hw'
      · intro hs
        rcases h.working (.inr hs) with hw' | hw' <;> cases hw.symm.trans hw'
  · exact h

theorem Rests.stop (h : s.Rests) {stopping : Stopping}
    (ha : s.abort = true → abort { s with stopping := stopping } = true)
    (hj : stopping ≠ .join) : Rests { s with stopping := stopping } := by
  unfold Rests at h ⊢
  cases hw : s.working with
  | acquire =>
    simp only [hw] at h ⊢
    exact ⟨h.1, h.2.1, fun h => absurd h hj⟩
  | exited =>
    simp only [hw] at h ⊢
    exact ha h
  | unstarted | drain | relock =>
    simp only [hw] at h ⊢
    exact h
  | take | test | running | forward | post => trivial

theorem Rests.stepShutdown (h : s.Rests) : s.stepShutdown.Rests := by
  cases hs : s.stopping with
  | idle =>
    simp only [WorkerThread.stepShutdown, hs]
    exact h.stop (by simp [abort, hs]) nofun
  | lock | store =>
    simp only [WorkerThread.stepShutdown, hs]
    exact h.stop (fun _ => rfl) nofun
  | release =>
    simp only [WorkerThread.stepShutdown, hs]
    unfold Rests at h ⊢
    cases hw : s.working with
    | acquire =>
      simp only [hw] at h ⊢
      exact ⟨h.1, fun _ => by omega, fun _ => by omega⟩
    | exited => rfl
    | unstarted | drain | relock =>
      simp only [hw] at h ⊢
      exact h
    | take | test | running | forward | post => trivial
  | join =>
    simp only [WorkerThread.stepShutdown, hs]
    split
    · exact h.stop (fun _ => rfl) nofun
    · exact h.stop (fun _ => rfl) nofun
    · exact h
  | clear =>
    simp only [WorkerThread.stepShutdown, hs]
    unfold Rests at h ⊢
    cases hw : s.working with
    | acquire => exact ⟨rfl, fun hne => absurd rfl hne, nofun⟩
    | unstarted => exact ⟨rfl, rfl⟩
    | drain | relock | exited => rfl
    | take | test | running | forward | post => trivial
  | done =>
    simp only [WorkerThread.stepShutdown, hs]
    exact h

theorem Stops.stepShutdown (h : s.Stops) : s.stepShutdown.Stops := by
  cases hs : s.stopping with
  | idle | lock | store | release =>
    simp only [WorkerThread.stepShutdown, hs]
    trivial
  | join =>
    simp only [WorkerThread.stepShutdown, hs]
    split
    · next hw => exact .inl hw
    · next hw => exact .inr hw
    · exact h
  | clear =>
    simp only [WorkerThread.stepShutdown, hs]
    exact ⟨h.working (.inl hs), rfl, rfl⟩
  | done =>
    simp only [WorkerThread.stepShutdown, hs]
    exact h

theorem Rests.step (h : s.Rests) (op : WorkerOp α) : ((workerThread α).step s op).1.Rests := by
  cases op with
  | enqueue tasks => exact h.enqueue tasks
  | release => exact h.release
  | work => exact h.stepWorker
  | enqueueLocal tasks => exact h.enqueueLocal tasks
  | shutdown => exact h.stepShutdown

theorem Stops.step (h : s.Stops) (op : WorkerOp α) : ((workerThread α).step s op).1.Stops := by
  cases op with
  | enqueue tasks => exact h.enqueue tasks
  | release => exact h.release
  | work => exact h.stepWorker
  | enqueueLocal tasks => exact h.enqueueLocal tasks
  | shutdown => exact h.stepShutdown

end Steps

section Log

variable {s s' : WorkerThread α} {r : TaskLog α}

/-- The tasks that are still due, while there is a worker to run them. -/
structure Logged (s : WorkerThread α) (r : TaskLog α) : Prop where
  due : s.working ≠ .exited → r.due = r.executed ++ s.pending
  executed : r.executed <+: r.due
  accepted : r.due.Perm r.accepted

theorem reduceOption_map_some (tasks : List α) : (tasks.map some).reduceOption = tasks := by
  simp [List.reduceOption]

theorem Logged.enqueue (h : s.Logged r) (hs : s.Rests) (tasks : List α) :
    ((workerThread α).step s (.enqueue tasks)).1.Logged (r.note s (.enqueue tasks)) := by
  simp only [workerThread, TaskLog.note]
  split
  · next heq =>
    have ha : s.abort = true := by
      unfold enqueueForeign at heq
      split at heq
      · assumption
      · split at heq <;> cases heq
    rw [if_pos ha]
    exact h
  · next s' release heq =>
    obtain ⟨ha, hcase⟩ := enqueueForeign_eq_some heq
    have ha' : ¬ s.abort = true := by simp [ha]
    rw [if_neg ha']
    have hw : s.working ≠ .exited := by
      intro hw
      simp only [Rests, hw] at hs
      exact ha' hs
    have hpending : pending s' = s.pending ++ tasks := by
      rcases hcase with ⟨hw, -, rfl⟩ | ⟨-, -, rfl⟩
      · simp [pending, taken, hand, hw, List.reduceOption_append, reduceOption_map_some]
      · simp only [pending, List.reduceOption_append, reduceOption_map_some, ← List.append_assoc]
        rfl
    refine ⟨fun _ => ?_, h.executed.trans (List.prefix_append _ _), h.accepted.append_right _⟩
    simp only [h.due hw, List.append_assoc]
    rw [← hpending]
    rfl

theorem Logged.of_pending (h : s.Logged r) (hw : s'.working ≠ .exited → s.working ≠ .exited)
    (hp : s'.working ≠ .exited → s'.pending = s.pending) : s'.Logged r where
  due hw' := by rw [hp hw', h.due (hw hw')]
  executed := h.executed
  accepted := h.accepted

theorem pending_locked (hp : s.privateQueue = []) (hh : s.hand = [])
    (hw : s.locked.working ≠ .exited) : s.locked.pending = s.pending := by
  have hpending : s.pending = s.publicQueue.reduceOption := by
    rw [pending, taken, hh, hp]
    rfl
  unfold WorkerThread.locked at hw ⊢
  split
  · next ha =>
    rw [if_pos ha] at hw
    exact absurd rfl hw
  · rw [hpending]
    split <;> simp [pending, taken, hand, hp]

theorem Logged.stepWorker (h : s.Logged r) (hs : s.Rests) :
    s.stepWorker.Logged (r.note s .work) := by
  cases hw : s.working with
  | unstarted | exited =>
    simp only [WorkerThread.stepWorker, TaskLog.note, hw]
    exact h
  | drain | relock =>
    simp only [WorkerThread.stepWorker, TaskLog.note, hw]
    simp only [Rests, hw] at hs
    refine h.of_pending (fun _ => by rw [hw]; exact nofun) (pending_locked hs (by simp [hand, hw]))
  | acquire =>
    simp only [WorkerThread.stepWorker, TaskLog.note, hw]
    split
    · exact h
    · refine h.of_pending (fun _ => by rw [hw]; exact nofun) fun _ => ?_
      simp [pending, taken, hand, hw]
  | take =>
    simp only [WorkerThread.stepWorker, TaskLog.note, hw]
    split
    · next hq =>
      refine h.of_pending (fun _ => by rw [hw]; exact nofun) fun _ => ?_
      simp [pending, taken, hand, hw]
    · next hq =>
      refine h.of_pending (fun _ => by rw [hw]; exact nofun) fun _ => ?_
      simp [pending, taken, hand, hw, hq]
  | test task =>
    simp only [WorkerThread.stepWorker, TaskLog.note, hw]
    split
    · exact h.of_pending (fun _ => by rw [hw]; exact nofun) fun hne => absurd rfl hne
    · have hdue := h.due (by rw [hw]; exact nofun)
      have hpending : s.pending =
          task.toList ++ pending { s with working := .running task } := by
        cases task <;> simp [pending, taken, hand, hw]
      rw [hpending, ← List.append_assoc] at hdue
      exact ⟨fun _ => hdue, ⟨_, hdue.symm⟩, h.accepted⟩
  | running | post =>
    simp only [WorkerThread.stepWorker, TaskLog.note, hw]
    refine h.of_pending (fun _ => by rw [hw]; exact nofun) fun _ => ?_
    simp [pending, taken, hand, hw]
  | forward task count =>
    simp only [WorkerThread.stepWorker, TaskLog.note, hw]
    split
    · refine h.of_pending (fun _ => by rw [hw]; exact nofun) fun _ => ?_
      simp [pending, taken, hand, hw]
    all_goals
      next heq =>
      refine h.of_pending (fun _ => by rw [hw]; exact nofun) fun _ => ?_
      obtain ⟨-, ⟨hw', -⟩ | ⟨-, -, rfl⟩⟩ := enqueueForeign_eq_some heq
      · cases hw.symm.trans hw'
      · simp [pending, taken, hand, hw, List.reduceOption_append, List.reduceOption_replicate_none]

theorem Logged.enqueueLocal (h : s.Logged r) (tasks : List α) :
    (s.enqueueLocal tasks).1.Logged (r.note s (.enqueueLocal tasks)) := by
  cases hw : s.working with
  | running task =>
    simp only [WorkerThread.enqueueLocal, TaskLog.note, hw]
    split
    · exact h
    · have hdue := h.due (by rw [hw]; exact nofun)
      refine ⟨fun _ => ?_, ?_, ?_⟩
      · simp [pending, taken, hand, hw, List.reduceOption_append, reduceOption_map_some]
      · simp only [List.append_assoc]
        exact List.prefix_append _ _
      · refine List.Perm.trans ?_ (h.accepted.append_right tasks)
        rw [hdue, pending]
        simp only [List.append_assoc]
        exact ((List.perm_append_comm).append_left _).append_left _
  | _ =>
    simp only [WorkerThread.enqueueLocal, TaskLog.note, hw]
    exact h

theorem Logged.stepShutdown (h : s.Logged r) (hr : s.Rests) (hs : s.Stops) :
    s.stepShutdown.Logged r := by
  cases hst : s.stopping with
  | idle | lock | store | release | done =>
    simp only [WorkerThread.stepShutdown, hst]
    exact h.of_pending id fun _ => rfl
  | join =>
    simp only [WorkerThread.stepShutdown, hst]
    split <;> exact h.of_pending id fun _ => rfl
  | clear =>
    simp only [WorkerThread.stepShutdown, hst]
    refine h.of_pending id fun hne => ?_
    have hw := (hs.working (.inl hst)).resolve_right hne
    simp only [Rests, hw] at hr
    simp [pending, taken, hand, hw, hr]

theorem Logged.step (h : s.Logged r) (hr : s.Rests) (hs : s.Stops) (op : WorkerOp α) :
    ((workerThread α).step s op).1.Logged (r.note s op) := by
  cases op with
  | enqueue tasks => exact h.enqueue hr tasks
  | release =>
    simp only [workerThread, TaskLog.note]
    split <;> exact h.of_pending id fun _ => rfl
  | work => exact h.stepWorker hr
  | enqueueLocal tasks => exact h.enqueueLocal tasks
  | shutdown => exact h.stepShutdown hr hs

/-- A worker that nobody is about to wake up has run everything. -/
theorem Logged.perm_of_asleep (h : s.Logged r) (hr : s.Rests) (hw : s.working = .acquire)
    (hsem : s.semaphore = 0) (hrel : s.releasing = 0) : r.executed.Perm r.accepted := by
  simp only [Rests, hw] at hr
  have hpublic : s.publicQueue = [] := by
    by_contra hne
    have hpos := hr.2.1 hne
    omega
  have hdue := h.due (by rw [hw]; exact nofun)
  have hpending : s.pending = [] := by simp [pending, taken, hand, hw, hr.1, hpublic]
  rw [hpending, List.append_nil] at hdue
  exact hdue ▸ h.accepted

theorem due_note {op : WorkerOp α} (h : r.due = r.accepted)
    (hop : ∀ tasks, op ≠ .enqueueLocal tasks) : (r.note s op).due = (r.note s op).accepted := by
  cases op with
  | enqueue tasks =>
    simp only [TaskLog.note]
    split
    · exact h
    · rw [h]
  | enqueueLocal tasks => exact absurd rfl (hop tasks)
  | work =>
    simp only [TaskLog.note]
    split
    · split <;> exact h
    · exact h
  | release | shutdown => exact h

end Log

end WorkerThread

open WorkerThread in
/-- Every task that is accepted is run at most once, and exactly once by the time the worker
sleeps and nobody is about to wake it up; tasks that do not enqueue tasks themselves are run in
the order of the calls. `shutdown` does not wait for a worker that sleeps for ever, and leaves
no worker and no task behind. -/
theorem workerThread_executes (ops : List (WorkerOp α)) :
    let r := (((workerThread α).noting TaskLog.note).run (.new, ⟨[], [], []⟩) ops).1
    r.2.executed.Subperm r.2.accepted ∧
      ((∀ op ∈ ops, ∀ tasks, op ≠ .enqueueLocal tasks) → r.2.executed <+: r.2.accepted) ∧
      (r.1.working = .acquire → r.1.semaphore = 0 → r.1.releasing = 0 →
        r.2.executed.Perm r.2.accepted) ∧
      (r.1.stopping = .join → r.1.working = .acquire → 0 < r.1.semaphore) ∧
      (r.1.stopping = .done → r.1.publicQueue = [] ∧ r.1.privateQueue = [] ∧
        (r.1.working = .unstarted ∨ r.1.working = .exited)) := by
  intro r
  have hnew : (new : WorkerThread α).Rests ∧ (new : WorkerThread α).Stops ∧
      (new : WorkerThread α).Logged ⟨[], [], []⟩ :=
    ⟨⟨rfl, rfl⟩, trivial, ⟨fun _ => rfl, List.nil_prefix, .refl _⟩⟩
  obtain ⟨hrests, hstops, hlogged⟩ : r.1.Rests ∧ r.1.Stops ∧ r.1.Logged r.2 :=
    ((workerThread α).noting TaskLog.note).run_keeps
      (P := fun r => r.1.Rests ∧ r.1.Stops ∧ r.1.Logged r.2)
      (fun r op h => ⟨h.1.step op, h.2.1.step op, h.2.2.step h.1 h.2.1 op⟩) hnew ops
  refine ⟨?_, fun hops => ?_, fun hw hsem hrel => ?_, fun hj hw => ?_, fun hd => ?_⟩
  · exact hlogged.executed.sublist.subperm.trans hlogged.accepted.subperm
  · have hdue : r.2.due = r.2.accepted :=
      ((workerThread α).noting TaskLog.note).run_invariant
        (P := fun r => r.2.due = r.2.accepted) (fun _ _ h hop => due_note h hop) rfl
        (Machine.along_of_forall_mem _ hops)
    exact hdue ▸ hlogged.executed
  · exact hlogged.perm_of_asleep hrests hw hsem hrel
  · simp only [Rests, hw] at hrests
    exact hrests.2.2 hj
  · simp only [Stops, hd] at hstops
    exact ⟨hstops.2.1, hstops.2.2, hstops.1⟩

/-- While a task runs another one is enqueued, and found without the semaphore. -/
theorem run_overtaken (task : α) (n : ℕ) :
    ((workerThread α).run ⟨[], [], n, 0, .running (some task), .idle⟩
      [.enqueue [task], .release, .work, .work, .work, .work, .work]).1 =
      ⟨[], [], n + 1, 0, .running (some task), .idle⟩ := rfl

/-- Nothing bounds the releases of the binary semaphore by other threads that are not taken,
of which there may be at most one. -/
theorem workerThread_semaphore_unbounded (task : α) (n : ℕ) :
    ∃ ops, (∀ op ∈ ops, op ≠ .shutdown ∧ ∀ tasks, op ≠ .enqueueLocal tasks) ∧
      ((workerThread α).run .new ops).1.semaphore = n := by
  suffices h : ∃ ops, (∀ op ∈ ops, op ≠ .shutdown ∧ ∀ tasks, op ≠ .enqueueLocal tasks) ∧
      ((workerThread α).run .new ops).1 = ⟨[], [], n, 0, .running (some task), .idle⟩ by
    obtain ⟨ops, hops, hrun⟩ := h
    exact ⟨ops, hops, by rw [hrun]⟩
  induction n with
  | zero => exact ⟨[.enqueue [task], .work, .work, .work], by simp, rfl⟩
  | succ n ih =>
    obtain ⟨ops, hops, hrun⟩ := ih
    refine ⟨ops ++ [.enqueue [task], .release, .work, .work, .work, .work, .work], ?_, ?_⟩
    · intro op hop
      rcases List.mem_append.mp hop with hop | hop
      · exact hops op hop
      · constructor
        · rintro rfl
          simp at hop
        · rintro tasks rfl
          simp at hop
    · rw [Machine.run_append, hrun, run_overtaken]

end Plain.Concurrency
