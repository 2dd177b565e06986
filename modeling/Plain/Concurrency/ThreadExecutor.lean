import Plain.Foundation.Machine
import Mathlib.Data.List.Perm.Basic
import Mathlib.Data.List.Nodup

/-! # The thread executor

Every task gets a thread of its own. A thread that has run its task retires: under the lock it
takes over the thread that retired before it and leaves itself behind, and then it joins what it
has taken over. The first call of `shutdown` waits until all have retired and joins the last of
them, so the threads are joined along a chain. What is done under the lock is one step.
-/

namespace Plain.Concurrency

variable {α : Type*}

/-- What a thread does next. It holds the `last` retired thread after it has retired itself. -/
inductive Retiring where
  | unstarted
  | running
  | retire
  | notify (last : List ℕ)
  | join (last : List ℕ)
  | exited
  deriving DecidableEq, Repr

/-- What the first call of `shutdown` does next. It sleeps at `wait`. -/
inductive Joining where
  | idle
  | lock
  | wait
  | check
  | join (thread : ℕ)
  | done
  deriving DecidableEq, Repr

/-- The executor. Threads are numbered in the order in which they are started, so the task of
thread `i` is the `i`-th of `tasks`. The first call of `shutdown` is made by the task of the
`caller`, or by another thread. -/
structure ThreadExecutor (α : Type*) where
  tasks : List α
  threads : ℕ → Retiring
  workers : List ℕ
  lastRetired : List ℕ
  abort : Bool
  joining : Joining
  caller : Option ℕ

/-- A thread enqueues tasks; a worker makes its next step; a thread calls `shutdown`; the first
of these calls makes its next step or wakes up for no reason. -/
inductive ThreadOp (α : Type*) where
  | enqueue (tasks : List α)
  | work (thread : ℕ)
  | shutdown (caller : Option ℕ)
  | stop
  | wake
  deriving DecidableEq, Repr

namespace ThreadExecutor

def new : ThreadExecutor α := ⟨[], fun _ => .unstarted, [], [], false, .idle, none⟩

def setThread (s : ThreadExecutor α) (i : ℕ) (next : Retiring) : ThreadExecutor α :=
  { s with threads := Function.update s.threads i next }

def enqueueImpl (s : ThreadExecutor α) (task : α) : ThreadExecutor α :=
  { s.setThread s.tasks.length .running with
    tasks := s.tasks ++ [task]
    workers := s.tasks.length :: s.workers }

def enqueue (s : ThreadExecutor α) (tasks : List α) : ThreadExecutor α × Bool :=
  if s.abort then (s, false) else (tasks.foldl enqueueImpl s, true)

def locked (s : ThreadExecutor α) : Bool :=
  match s.joining with
  | .join _ => true
  | .idle | .lock | .wait | .check | .done => false

/-- The task of this thread is inside the first call of `shutdown`. -/
def stopped (s : ThreadExecutor α) (i : ℕ) : Bool :=
  match s.joining with
  | .idle | .done => false
  | .lock | .wait | .check | .join _ => s.caller == some i

def retireWorker (s : ThreadExecutor α) (i : ℕ) : ThreadExecutor α :=
  { s.setThread i (.notify s.lastRetired) with
    workers := s.workers.erase i
    lastRetired := [i] }

def wake (s : ThreadExecutor α) : ThreadExecutor α :=
  match s.joining with
  | .wait => { s with joining := .check }
  | .idle | .lock | .check | .join _ | .done => s

def work (s : ThreadExecutor α) (i : ℕ) : ThreadExecutor α :=
  match s.threads i with
  | .unstarted | .exited => s
  | .running => if s.stopped i then s else s.setThread i .retire
  | .retire => if s.locked then s else s.retireWorker i
  | .notify last => s.wake.setThread i (.join last)
  | .join [] => s.setThread i .exited
  | .join (t :: _) => if s.threads t = .exited then s.setThread i .exited else s

/-- A task calls `shutdown` while it runs. Every later call returns at once. -/
def shutdown (s : ThreadExecutor α) (caller : Option ℕ) : ThreadExecutor α :=
  match s.joining with
  | .idle =>
      if ∀ i ∈ caller, s.threads i = .running then
        { s with joining := .lock, caller := caller }
      else s
  | .lock | .wait | .check | .join _ | .done => s

/-- What `shutdown` does when it holds the lock: the test of the condition and what comes behind
it. -/
def proceed (s : ThreadExecutor α) : ThreadExecutor α :=
  match s.workers, s.lastRetired with
  | _ :: _, _ => { s with joining := .wait }
  | [], [] => { s with joining := .done }
  | [], t :: _ => { s with joining := .join t }

def stop (s : ThreadExecutor α) : ThreadExecutor α :=
  match s.joining with
  | .idle | .wait | .done => s
  | .lock => { s with abort := true }.proceed
  | .check => s.proceed
  | .join t =>
      if s.threads t = .exited then { s with lastRetired := [], joining := .done } else s

end ThreadExecutor

/-- The executor under any interleaving. The answer to a call is whether it has not thrown. -/
def threadExecutor (α : Type*) : Machine (ThreadExecutor α) (ThreadOp α) Bool where
  step s
    | .enqueue tasks => s.enqueue tasks
    | .work i => (s.work i, true)
    | .shutdown caller => (s.shutdown caller, true)
    | .stop => (s.stop, true)
    | .wake => (s.wake, true)

/-- The threads whose task was run, those that retired and those that were joined, the latest
first. -/
structure ThreadLog where
  executed : List ℕ
  retired : List ℕ
  joined : List ℕ
  deriving DecidableEq, Repr

namespace ThreadLog

def new : ThreadLog := ⟨[], [], []⟩

def work (s : ThreadExecutor α) (r : ThreadLog) (i : ℕ) : ThreadLog :=
  match s.threads i with
  | .unstarted | .exited | .notify _ | .join [] => r
  | .running => if s.stopped i then r else { r with executed := i :: r.executed }
  | .retire => if s.locked then r else { r with retired := i :: r.retired }
  | .join (t :: _) =>
      if s.threads t = .exited then { r with joined := t :: r.joined } else r

def stop (s : ThreadExecutor α) (r : ThreadLog) : ThreadLog :=
  match s.joining with
  | .join t => if s.threads t = .exited then { r with joined := t :: r.joined } else r
  | .idle | .lock | .wait | .check | .done => r

def note (s : ThreadExecutor α) (r : ThreadLog) : ThreadOp α → ThreadLog
  | .work i => r.work s i
  | .stop => r.stop s
  | .enqueue _ | .shutdown _ | .wake => r

end ThreadLog

namespace ThreadExecutor

/-- What holds where the first call of `shutdown` is. A sleeping call is notified if there is no
worker left. -/
def Waits (s : ThreadExecutor α) : Prop :=
  match s.joining with
  | .idle | .lock => s.abort = false
  | .wait => s.abort = true ∧ (s.workers = [] → ∃ i last, s.threads i = .notify last)
  | .check => s.abort = true
  | .join t => s.abort = true ∧ s.workers = [] ∧ s.lastRetired = [t]
  | .done => s.abort = true ∧ s.workers = [] ∧ s.lastRetired = []

/-- The retired threads are those that are `leaving`, each of which holds the one that retired
before it, and those that have `left`, all of which but the last are joined. -/
structure Linked (s : ThreadExecutor α) (r : ThreadLog) (leaving left : List ℕ) : Prop where
  retired : r.retired = leaving ++ left
  holds : ∀ pre i post, leaving = pre ++ i :: post →
    s.threads i = .notify ((post ++ left).take 1) ∨ s.threads i = .join ((post ++ left).take 1)
  exited : ∀ i, i ∈ left ↔ s.threads i = .exited
  joined : r.joined = if s.joining = .done then left else left.tail
  none_leaving : s.joining = .done → leaving = []

/-- The lists of the executor and of the log tell what a thread does `next`. -/
structure Counted (s : ThreadExecutor α) (r : ThreadLog) (i : ℕ) (next : Retiring) : Prop where
  unstarted : next = .unstarted ↔ s.tasks.length ≤ i
  workers : i ∈ s.workers ↔ next = .running ∨ next = .retire
  retired : next ≠ .unstarted → i ∉ s.workers → i ∈ r.retired
  executed : i ∈ r.executed ↔ next ≠ .unstarted ∧ next ≠ .running

structure Reached (s : ThreadExecutor α) (r : ThreadLog) : Prop where
  each : ∀ i, s.Counted r i (s.threads i)
  workers_nodup : s.workers.Nodup
  executed_nodup : r.executed.Nodup
  retired_nodup : r.retired.Nodup
  lastRetired : s.joining ≠ .done → s.lastRetired = r.retired.take 1
  linked : ∃ leaving left, s.Linked r leaving left
  caller : ∀ i, s.caller = some i → s.threads i = .running ∧ s.joining ≠ .idle
  waits : s.Waits

section Steps

variable {s : ThreadExecutor α} {r : ThreadLog} {leaving left : List ℕ} {i j : ℕ}

@[simp] theorem threads_setThread_self (next : Retiring) :
    (s.setThread i next).threads i = next := by simp [setThread]

theorem threads_setThread_of_ne (h : j ≠ i) (next : Retiring) :
    (s.setThread i next).threads j = s.threads j := by simp [setThread, h]

theorem forall_setThread {P : ℕ → Retiring → Prop} {next : Retiring} (hi : P i next)
    (h : ∀ j, j ≠ i → P j (s.threads j)) (j : ℕ) : P j ((s.setThread i next).threads j) := by
  by_cases hj : j = i
  · subst hj
    rwa [threads_setThread_self]
  · rw [threads_setThread_of_ne hj]
    exact h j hj

theorem Linked.of_mem (h : s.Linked r leaving left) (hi : i ∈ leaving) :
    ∃ last, s.threads i = .notify last ∨ s.threads i = .join last := by
  obtain ⟨pre, post, hsplit⟩ := List.append_of_mem hi
  exact ⟨_, h.holds pre i post hsplit⟩

theorem Linked.set_worker (h : s.Linked r leaving left) (next : Retiring)
    (hi : ∀ last, s.threads i ≠ .notify last ∧ s.threads i ≠ .join last)
    (he : s.threads i ≠ .exited) (hnext : next ≠ .exited) :
    (s.setThread i next).Linked r leaving left where
  retired := h.retired
  holds pre j post hsplit := by
    have hj : j ≠ i := by
      rintro rfl
      rcases h.holds pre j post hsplit with hj | hj
      · exact (hi _).1 hj
      · exact (hi _).2 hj
    rw [threads_setThread_of_ne hj]
    exact h.holds pre j post hsplit
  exited := by
    refine forall_setThread (P := fun j t => j ∈ left ↔ t = .exited) ?_ fun j _ => h.exited j
    rw [h.exited i]
    exact ⟨fun hx => absurd hx he, fun hx => absurd hx hnext⟩
  joined := h.joined
  none_leaving := h.none_leaving

theorem not_done_of_abort (h : s.Waits) (ha : s.abort = false) :
    s.joining = .idle ∨ s.joining = .lock := by
  unfold Waits at h
  cases hj : s.joining with
  | idle => exact .inl rfl
  | lock => exact .inr rfl
  | wait | join | done =>
    simp only [hj] at h
    exact absurd (ha.symm.trans h.1) Bool.false_ne_true
  | check =>
    simp only [hj] at h
    exact absurd (ha.symm.trans h) Bool.false_ne_true

theorem Waits.enqueueImpl (h : s.Waits) (ha : s.abort = false) (task : α) :
    (s.enqueueImpl task).Waits := by
  have hj : (s.enqueueImpl task).joining = s.joining := rfl
  unfold Waits
  rcases not_done_of_abort h ha with hs | hs <;> rw [hj, hs] <;> exact ha

theorem Reached.mem_workers (h : s.Reached r)
    (hi : s.threads i = .running ∨ s.threads i = .retire) : i ∈ s.workers :=
  (h.each i).workers.mpr hi

theorem Reached.not_mem_workers (h : s.Reached r) (hrun : s.threads i ≠ .running)
    (hret : s.threads i ≠ .retire) : i ∉ s.workers := by
  rw [(h.each i).workers]
  exact not_or.mpr ⟨hrun, hret⟩

theorem Reached.lt_length (h : s.Reached r) (hi : s.threads i ≠ .unstarted) :
    i < s.tasks.length := by
  rw [ne_eq, (h.each i).unstarted] at hi
  exact Nat.not_le.mp hi

theorem Reached.caller_setThread (h : s.Reached r) (hi : s.caller ≠ some i) {next : Retiring}
    (hj : s.caller = some j) :
    (s.setThread i next).threads j = .running ∧ s.joining ≠ .idle := by
  obtain ⟨hrun, hidle⟩ := h.caller j hj
  refine ⟨(threads_setThread_of_ne ?_ next).trans hrun, hidle⟩
  rintro rfl
  exact hi hj

theorem Reached.caller_ne_of_not_running (h : s.Reached r) (hi : s.threads i ≠ .running) :
    s.caller ≠ some i := fun hc => hi (h.caller i hc).1

theorem Reached.enqueueImpl (h : s.Reached r) (ha : s.abort = false) (task : α) :
    (s.enqueueImpl task).Reached r := by
  have hun : s.threads s.tasks.length = .unstarted := (h.each _).unstarted.mpr (Nat.le_refl _)
  have hnew := h.not_mem_workers (i := s.tasks.length) (by simp [hun]) (by simp [hun])
  obtain ⟨leaving, left, hl⟩ := h.linked
  have hset := hl.set_worker (i := s.tasks.length) .running (by simp [hun])
    (by simp [hun]) (by simp)
  have hexec := (h.each s.tasks.length).executed
  rw [hun] at hexec
  exact {
    each := by
      refine forall_setThread (P := (s.enqueueImpl task).Counted r) ?_ fun j hj => ?_
      · exact ⟨by simp [ThreadExecutor.enqueueImpl], by simp [ThreadExecutor.enqueueImpl],
          fun _ hmem => absurd List.mem_cons_self hmem, by simp [hexec]⟩
      · obtain ⟨h1, h2, h3, h4⟩ := h.each j
        refine ⟨?_, ?_, fun hne hmem => h3 hne fun hw => hmem (List.mem_cons_of_mem _ hw), h4⟩
        · rw [h1, ThreadExecutor.enqueueImpl, List.length_append, List.length_singleton]
          omega
        · simp only [ThreadExecutor.enqueueImpl, List.mem_cons]
          rw [or_iff_right hj, h2]
    workers_nodup := List.nodup_cons.mpr ⟨hnew, h.workers_nodup⟩
    executed_nodup := h.executed_nodup
    retired_nodup := h.retired_nodup
    lastRetired := h.lastRetired
    linked := ⟨leaving, left, hset.retired, hset.holds, hset.exited, hset.joined,
      hset.none_leaving⟩
    caller := fun j => h.caller_setThread (h.caller_ne_of_not_running (by simp [hun]))
    waits := h.waits.enqueueImpl ha task }

theorem Reached.enqueue (h : s.Reached r) (tasks : List α) : (s.enqueue tasks).1.Reached r := by
  unfold ThreadExecutor.enqueue
  split
  · exact h
  · next ha =>
    rw [Bool.not_eq_true] at ha
    induction tasks generalizing s with
    | nil => exact h
    | cons task tasks ih => exact ih (h.enqueueImpl ha task) ha

theorem Reached.rejoin (h : s.Reached r) (hd : s.joining ≠ .done) {next : Joining} {abort : Bool}
    {caller : Option ℕ} (hn : next ≠ .done)
    (hw : Waits { s with joining := next, abort := abort, caller := caller })
    (hc : ∀ i, caller = some i → s.threads i = .running ∧ next ≠ .idle) :
    Reached { s with joining := next, abort := abort, caller := caller } r := by
  obtain ⟨leaving, left, hl⟩ := h.linked
  exact {
    each := fun i => ⟨(h.each i).unstarted, (h.each i).workers, (h.each i).retired,
      (h.each i).executed⟩
    workers_nodup := h.workers_nodup
    executed_nodup := h.executed_nodup
    retired_nodup := h.retired_nodup
    lastRetired := fun _ => h.lastRetired hd
    linked := by
      refine ⟨leaving, left, hl.retired, hl.holds, hl.exited, ?_, fun hx => absurd hx hn⟩
      have := hl.joined
      rw [if_neg hd] at this
      rw [this, if_neg hn]
    caller := hc
    waits := hw }

theorem Waits.setThread (h : s.Waits)
    (hi : s.joining = .wait → ∀ last, s.threads i ≠ .notify last) (next : Retiring) :
    (s.setThread i next).Waits := by
  have hs : (s.setThread i next).joining = s.joining := rfl
  unfold Waits at h ⊢
  cases hj : s.joining with
  | wait =>
    simp only [hj, hs] at h ⊢
    refine ⟨h.1, fun hempty => ?_⟩
    obtain ⟨j, last, hjn⟩ := h.2 hempty
    refine ⟨j, last, (threads_setThread_of_ne ?_ next).trans hjn⟩
    rintro rfl
    exact hi hj last hjn
  | idle | lock | check | join | done =>
    simp only [hj, hs] at h ⊢
    exact h

theorem Waits.wake (h : s.Waits) : s.wake.Waits := by
  unfold Waits at h
  unfold ThreadExecutor.wake
  cases hj : s.joining with
  | wait =>
    simp only [hj] at h ⊢
    exact h.1
  | idle | lock | check | join | done =>
    simp only [hj] at h
    simpa only [Waits, hj] using h

theorem Waits.workers_eq_nil (h : s.Waits) (hj : s.locked = true ∨ s.joining = .done) :
    s.workers = [] := by
  unfold Waits at h
  unfold locked at hj
  cases hs : s.joining with
  | join | done =>
    simp only [hs] at h
    exact h.2.1
  | idle | lock | wait | check => simp [hs] at hj

theorem Waits.retireWorker (h : s.Waits) (hl : s.locked = false) (hi : i ∈ s.workers) :
    (s.retireWorker i).Waits := by
  have hs : (s.retireWorker i).joining = s.joining := rfl
  have hd : s.joining ≠ .done := by
    intro hd
    rw [h.workers_eq_nil (.inr hd)] at hi
    exact absurd hi List.not_mem_nil
  unfold Waits at h ⊢
  unfold locked at hl
  cases hj : s.joining with
  | wait =>
    simp only [hj, hs] at h ⊢
    exact ⟨h.1, fun _ => ⟨i, s.lastRetired, threads_setThread_self _⟩⟩
  | idle | lock | check =>
    simp only [hj, hs] at h ⊢
    exact h
  | join t => simp [hj] at hl
  | done => exact absurd hj hd

theorem Reached.caller_ne (h : s.Reached r) (hi : s.threads i = .running)
    (hs : s.stopped i = false) : s.caller ≠ some i := by
  intro hc
  have hw := h.mem_workers (.inl hi)
  unfold stopped at hs
  cases hj : s.joining with
  | idle => exact (h.caller i hc).2 hj
  | done =>
    rw [h.waits.workers_eq_nil (.inr hj)] at hw
    exact absurd hw List.not_mem_nil
  | lock | wait | check | join => simp [hj, hc] at hs

theorem Reached.run_task (h : s.Reached r) (hi : s.threads i = .running)
    (hs : s.stopped i = false) :
    (s.setThread i .retire).Reached { r with executed := i :: r.executed } := by
  obtain ⟨leaving, left, hl⟩ := h.linked
  have hw := h.mem_workers (.inl hi)
  have hset := hl.set_worker (i := i) .retire (by simp [hi]) (by simp [hi]) (by simp)
  have hlt := h.lt_length (i := i) (by simp [hi])
  exact {
    each := by
      refine forall_setThread
        (P := (s.setThread i .retire).Counted { r with executed := i :: r.executed }) ?_
        fun j hj => ?_
      · exact ⟨iff_of_false (by simp) (Nat.not_le.mpr hlt), iff_of_true hw (.inr rfl),
          fun _ hmem => absurd hw hmem, by simp⟩
      · obtain ⟨h1, h2, h3, h4⟩ := h.each j
        exact ⟨h1, h2, h3, by rw [List.mem_cons, or_iff_right hj, h4]⟩
    workers_nodup := h.workers_nodup
    executed_nodup := by
      refine List.nodup_cons.mpr ⟨fun hmem => ?_, h.executed_nodup⟩
      exact ((h.each i).executed.mp hmem).2 hi
    retired_nodup := h.retired_nodup
    lastRetired := h.lastRetired
    linked := ⟨leaving, left, hset.retired, hset.holds, hset.exited, hset.joined,
      hset.none_leaving⟩
    caller := fun j => h.caller_setThread (h.caller_ne hi hs)
    waits := h.waits.setThread (by simp [hi]) _ }

theorem Linked.retireWorker (h : s.Linked r leaving left) (hi : s.threads i = .retire)
    (hd : s.joining ≠ .done) (hlast : s.lastRetired = r.retired.take 1) :
    (s.retireWorker i).Linked { r with retired := i :: r.retired } (i :: leaving) left where
  retired := congrArg (i :: ·) h.retired
  holds pre j post hsplit := by
    have hset := h.set_worker (i := i) (.notify s.lastRetired) (by simp [hi])
      (by simp [hi]) (by simp)
    cases pre with
    | nil =>
      obtain ⟨rfl, rfl⟩ := List.cons_eq_cons.mp hsplit
      refine .inl ((threads_setThread_self _).trans ?_)
      rw [hlast, h.retired]
    | cons k pre => exact hset.holds pre j post (List.cons_eq_cons.mp hsplit).2
  exited := by
    have hset := h.set_worker (i := i) (.notify s.lastRetired) (by simp [hi])
      (by simp [hi]) (by simp)
    exact hset.exited
  joined := h.joined
  none_leaving hx := absurd hx hd

theorem Reached.retireWorker (h : s.Reached r) (hi : s.threads i = .retire)
    (hl : s.locked = false) :
    (s.retireWorker i).Reached { r with retired := i :: r.retired } := by
  obtain ⟨leaving, left, hlink⟩ := h.linked
  have hw := h.mem_workers (.inr hi)
  have hd : s.joining ≠ .done := by
    intro hd
    rw [h.waits.workers_eq_nil (.inr hd)] at hw
    exact absurd hw List.not_mem_nil
  have hnew : i ∉ r.retired := by
    rw [hlink.retired, List.mem_append, hlink.exited, hi]
    rintro (hmem | hx)
    · obtain ⟨last, hx | hx⟩ := hlink.of_mem hmem <;> cases hi.symm.trans hx
    · cases hx
  have hlt := h.lt_length (i := i) (by simp [hi])
  exact {
    each := by
      refine forall_setThread
        (P := (s.retireWorker i).Counted { r with retired := i :: r.retired }) ?_ fun j hj => ?_
      · refine ⟨iff_of_false (by simp) (Nat.not_le.mpr hlt), ?_, fun _ _ => List.mem_cons_self, ?_⟩
        · exact iff_of_false h.workers_nodup.not_mem_erase (by simp)
        · exact iff_of_true ((h.each i).executed.mpr (by simp [hi])) (by simp)
      · obtain ⟨h1, h2, h3, h4⟩ := h.each j
        have hmem : j ∈ (s.retireWorker i).workers ↔ j ∈ s.workers := by
          rw [ThreadExecutor.retireWorker, h.workers_nodup.mem_erase_iff, and_iff_right hj]
        refine ⟨h1, hmem.trans h2, fun hne hj' => ?_, h4⟩
        exact List.mem_cons_of_mem _ (h3 hne fun hjw => hj' (hmem.mpr hjw))
    workers_nodup := h.workers_nodup.erase i
    executed_nodup := h.executed_nodup
    retired_nodup := List.nodup_cons.mpr ⟨hnew, h.retired_nodup⟩
    lastRetired := fun _ => rfl
    linked := ⟨_, _, hlink.retireWorker hi hd (h.lastRetired hd)⟩
    caller := fun j => h.caller_setThread (h.caller_ne_of_not_running (by simp [hi]))
    waits := h.waits.retireWorker hl hw }

theorem Reached.leave (h : s.Reached r) (joined : List ℕ) {next : Retiring} (hw : i ∉ s.workers)
    (hi : s.threads i ≠ .unstarted) (hn : next ≠ .unstarted) (hn' : next ≠ .running)
    (hn'' : next ≠ .retire)
    (hl : (s.setThread i next).Linked { r with joined := joined } leaving left)
    (hwaits : (s.setThread i next).Waits) :
    (s.setThread i next).Reached { r with joined := joined } where
  each := by
    refine forall_setThread
      (P := (s.setThread i next).Counted { r with joined := joined }) ?_ fun j _ => ?_
    · refine ⟨iff_of_false hn (Nat.not_le.mpr (h.lt_length hi)), ?_, ?_, ?_⟩
      · exact iff_of_false hw (not_or.mpr ⟨hn', hn''⟩)
      · exact fun _ => (h.each i).retired hi
      · refine iff_of_true ((h.each i).executed.mpr ⟨hi, fun hrun => ?_⟩) ⟨hn, hn'⟩
        exact hw (h.mem_workers (.inl hrun))
    · exact ⟨(h.each j).unstarted, (h.each j).workers, (h.each j).retired, (h.each j).executed⟩
  workers_nodup := h.workers_nodup
  executed_nodup := h.executed_nodup
  retired_nodup := h.retired_nodup
  lastRetired := h.lastRetired
  linked := ⟨leaving, left, hl⟩
  caller j := by
    refine h.caller_setThread (h.caller_ne_of_not_running fun hrun => ?_)
    exact hw (h.mem_workers (.inl hrun))
  waits := hwaits

theorem Reached.wake (h : s.Reached r) : s.wake.Reached r := by
  have hw := h.waits.wake
  unfold ThreadExecutor.wake at hw ⊢
  cases hj : s.joining with
  | wait =>
    simp only [hj] at hw ⊢
    exact h.rejoin (by simp [hj]) (by simp) hw fun i hi => ⟨(h.caller i hi).1, by simp⟩
  | idle | lock | check | join | done => exact h

theorem Linked.notify (h : s.Linked r leaving left) {last : List ℕ}
    (hi : s.threads i = .notify last) :
    (s.setThread i (.join last)).Linked r leaving left where
  retired := h.retired
  holds pre j post hsplit := by
    by_cases hj : j = i
    · subst hj
      rw [threads_setThread_self]
      rcases h.holds pre j post hsplit with hx | hx
      · cases hi.symm.trans hx
        exact .inr rfl
      · cases hi.symm.trans hx
    · rw [threads_setThread_of_ne hj]
      exact h.holds pre j post hsplit
  exited := by
    refine forall_setThread (P := fun j t => j ∈ left ↔ t = .exited) ?_ fun j _ => h.exited j
    rw [h.exited i, hi]
    simp
  joined := h.joined
  none_leaving := h.none_leaving

/-- A thread can leave when all that retired before it have left. -/
theorem Linked.exit (h : s.Linked r leaving left) (hnodup : r.retired.Nodup) {last : List ℕ}
    (hi : s.threads i = .join last) (hmem : i ∈ r.retired)
    (hlast : ∀ t ∈ last.head?, s.threads t = .exited) :
    ∃ pre, (s.setThread i .exited).Linked { r with joined := last.take 1 ++ r.joined }
      pre (i :: left) := by
  have hleaving : i ∈ leaving := by
    rw [h.retired, List.mem_append, h.exited, hi] at hmem
    exact hmem.resolve_right (by simp)
  obtain ⟨pre, post, rfl⟩ := List.append_of_mem hleaving
  have heq : last = (post ++ left).take 1 := by
    rcases h.holds pre i post rfl with hx | hx
    · cases hi.symm.trans hx
    · cases hi.symm.trans hx
      rfl
  have hpost : post = [] := by
    cases post with
    | nil => rfl
    | cons u post =>
      have hu : s.threads u = .exited := hlast u (by simp [heq])
      obtain ⟨l, hx | hx⟩ := h.of_mem (i := u) (by simp) <;> cases hu.symm.trans hx
  subst hpost
  have hd : s.joining ≠ .done := fun hd => by simpa using h.none_leaving hd
  refine ⟨pre, by simpa using h.retired, ?_, ?_, ?_, fun hx => absurd hx hd⟩
  · intro a j b hsplit
    have hj : j ≠ i := by
      rintro rfl
      rw [h.retired, hsplit] at hnodup
      simp [List.nodup_append] at hnodup
    rw [threads_setThread_of_ne hj]
    have := h.holds a j (b ++ [i]) (by simp [hsplit])
    rwa [List.append_assoc] at this
  · refine forall_setThread (P := fun j t => j ∈ i :: left ↔ t = .exited) ?_ fun j hj => ?_
    · simp
    · rw [List.mem_cons, or_iff_right hj, h.exited]
  · have hjoined := h.joined
    rw [if_neg hd] at hjoined
    change last.take 1 ++ r.joined = if s.joining = .done then i :: left else left
    rw [if_neg hd, hjoined, heq]
    cases left <;> simp

theorem threads_wake : s.wake.threads = s.threads := by
  unfold ThreadExecutor.wake
  split <;> rfl

theorem joining_wake_ne : s.wake.joining ≠ .wait := by
  unfold ThreadExecutor.wake
  cases hj : s.joining <;> simp [hj]

theorem Reached.exit (h : s.Reached r) {last : List ℕ} (hi : s.threads i = .join last)
    (hlast : ∀ t ∈ last.head?, s.threads t = .exited) :
    (s.setThread i .exited).Reached { r with joined := last.take 1 ++ r.joined } := by
  obtain ⟨leaving, left, hl⟩ := h.linked
  have hw := h.not_mem_workers (i := i) (by simp [hi]) (by simp [hi])
  have hne : s.threads i ≠ .unstarted := by simp [hi]
  obtain ⟨pre, hl'⟩ := hl.exit h.retired_nodup hi ((h.each i).retired hne hw) hlast
  exact h.leave _ hw hne (by simp) (by simp) (by simp) hl' (h.waits.setThread (by simp [hi]) _)

theorem Reached.work (h : s.Reached r) (i : ℕ) : (s.work i).Reached (r.work s i) := by
  unfold ThreadExecutor.work ThreadLog.work
  cases hi : s.threads i with
  | unstarted | exited => exact h
  | running =>
    simp only
    cases hs : s.stopped i with
    | true => exact h
    | false => exact h.run_task hi hs
  | retire =>
    simp only
    cases hl : s.locked with
    | true => exact h
    | false => exact h.retireWorker hi hl
  | notify last =>
    obtain ⟨leaving, left, hl⟩ := h.wake.linked
    have hi' : s.wake.threads i = .notify last := by rwa [threads_wake]
    refine h.wake.leave r.joined ?_ (by simp [hi']) (by simp) (by simp) (by simp)
      (hl.notify hi') (h.waits.wake.setThread (fun hx => absurd hx joining_wake_ne) _)
    exact h.wake.not_mem_workers (by simp [hi']) (by simp [hi'])
  | join last =>
    cases last with
    | nil => exact h.exit hi (by simp)
    | cons t last =>
      simp only
      split
      · next ht => exact h.exit hi (by simpa using ht)
      · exact h

theorem Reached.shutdown (h : s.Reached r) (caller : Option ℕ) :
    (s.shutdown caller).Reached r := by
  unfold ThreadExecutor.shutdown
  cases hj : s.joining with
  | idle =>
    simp only
    split
    · next hc =>
      have hw := h.waits
      simp only [Waits, hj] at hw
      refine h.rejoin (by simp [hj]) (by simp) hw fun i hi => ⟨hc i hi, by simp⟩
    · exact h
  | lock | wait | check | join | done => exact h

/-- Where the last retired thread has left, all have, and so the join of it is the last one. -/
theorem Linked.done (h : s.Linked r leaving left) (hd : s.joining ≠ .done)
    (hlast : ∀ t ∈ r.retired.head?, s.threads t = .exited) (abort : Bool) (last : List ℕ) :
    Linked { s with lastRetired := last, abort := abort, joining := .done }
      { r with joined := r.retired.take 1 ++ r.joined } [] left := by
  have hleaving : leaving = [] := by
    cases leaving with
    | nil => rfl
    | cons t leaving =>
      have ht : s.threads t = .exited := hlast t (by simp [h.retired])
      obtain ⟨l, hx | hx⟩ := h.of_mem (i := t) (by simp) <;> cases ht.symm.trans hx
  subst hleaving
  have hjoined := h.joined
  rw [if_neg hd] at hjoined
  refine ⟨h.retired, fun pre i post hsplit => ?_, h.exited, ?_, fun _ => rfl⟩
  · simp at hsplit
  · rw [if_pos rfl, hjoined, h.retired]
    cases left <;> simp

theorem Reached.done (h : s.Reached r) (hd : s.joining ≠ .done) (hw : s.workers = [])
    (hlast : ∀ t ∈ s.lastRetired.head?, s.threads t = .exited) {abort : Bool} (ha : abort = true)
    {last : List ℕ} (hl : last = []) :
    Reached { s with lastRetired := last, abort := abort, joining := .done }
      { r with joined := s.lastRetired.take 1 ++ r.joined } := by
  obtain ⟨leaving, left, hlink⟩ := h.linked
  have heq := h.lastRetired hd
  have hlink' := hlink.done hd (by simpa [heq, List.head?_take] using hlast) abort last
  have hjoined : s.lastRetired.take 1 = r.retired.take 1 := by
    rw [heq, List.take_take, Nat.min_self]
  rw [hjoined]
  exact {
    each := fun i => ⟨(h.each i).unstarted, (h.each i).workers, (h.each i).retired,
      (h.each i).executed⟩
    workers_nodup := h.workers_nodup
    executed_nodup := h.executed_nodup
    retired_nodup := h.retired_nodup
    lastRetired := fun hx => absurd rfl hx
    linked := ⟨_, _, hlink'⟩
    caller := fun i hi => ⟨(h.caller i hi).1, by simp⟩
    waits := ⟨ha, hw, hl⟩ }

theorem Reached.proceed (h : s.Reached r) (hd : s.joining ≠ .done) {abort : Bool}
    (ha : abort = true) : Reached { s with abort := abort }.proceed r := by
  have hcaller : ∀ next, next ≠ .idle → ∀ i, s.caller = some i →
      s.threads i = .running ∧ next ≠ Joining.idle := fun next hn i hi => ⟨(h.caller i hi).1, hn⟩
  unfold ThreadExecutor.proceed
  split
  · next w workers _ hw =>
    refine h.rejoin hd (by simp) ⟨ha, fun hx => ?_⟩ (hcaller _ (by simp))
    cases hw.symm.trans hx
  · next hw hlast =>
    have := h.done hd hw (by simp_all) ha hlast
    simpa [show s.lastRetired = [] from hlast] using this
  · next t last hw hlast =>
    refine h.rejoin hd (by simp) ⟨ha, hw, ?_⟩ (hcaller _ (by simp))
    have heq := h.lastRetired hd
    change s.lastRetired = [t]
    change s.lastRetired = t :: last at hlast
    cases hr : r.retired with
    | nil => simp [hlast, hr] at heq
    | cons u retired =>
      rw [hr, hlast] at heq
      simpa [hlast] using (List.cons_eq_cons.mp heq).2

theorem Reached.stop (h : s.Reached r) : s.stop.Reached (r.stop s) := by
  have hw := h.waits
  unfold ThreadExecutor.stop ThreadLog.stop
  cases hj : s.joining with
  | idle | wait | done => exact h
  | lock => exact h.proceed (by simp [hj]) rfl
  | check =>
    simp only [Waits, hj] at hw
    exact h.proceed (by simp [hj]) hw
  | join t =>
    simp only [Waits, hj] at hw
    simp only
    split
    · next ht =>
      have := h.done (by simp [hj]) hw.2.1 (by simpa [hw.2.2] using ht) hw.1 (rfl : [] = [])
      simpa [hw.2.2] using this
    · exact h

theorem reached_new : (new : ThreadExecutor α).Reached .new where
  each i := ⟨by simp [new], by simp [new], fun hi => absurd rfl hi, by simp [new, ThreadLog.new]⟩
  workers_nodup := List.nodup_nil
  executed_nodup := List.nodup_nil
  retired_nodup := List.nodup_nil
  lastRetired _ := rfl
  linked := ⟨[], [], rfl, by simp, by simp [new], rfl, fun _ => rfl⟩
  caller i hi := absurd hi (by simp [new])
  waits := rfl

theorem Reached.step (h : s.Reached r) (op : ThreadOp α) :
    ((threadExecutor α).step s op).1.Reached (r.note s op) := by
  cases op with
  | enqueue tasks => exact h.enqueue tasks
  | work i => exact h.work i
  | shutdown caller => exact h.shutdown caller
  | stop => exact h.stop
  | wake => exact h.wake

theorem Reached.run (h : s.Reached r) (ops : List (ThreadOp α)) :
    let p := (((threadExecutor α).noting ThreadLog.note).run (s, r) ops).1
    p.1.Reached p.2 :=
  Machine.run_keeps _ (P := fun p : ThreadExecutor α × ThreadLog => p.1.Reached p.2)
    (fun _ op hp => hp.step op) h ops

end Steps

section Outcome

variable {s : ThreadExecutor α} {r : ThreadLog} {leaving left : List ℕ} {i : ℕ}

theorem Linked.joined_suffix (h : s.Linked r leaving left) : r.joined <:+ left := by
  rw [h.joined]
  split
  · exact List.suffix_rfl
  · exact List.tail_suffix left

theorem Reached.joined_suffix (h : s.Reached r) : r.joined <:+ r.retired := by
  obtain ⟨leaving, left, hl⟩ := h.linked
  rw [hl.retired]
  exact hl.joined_suffix.trans (List.suffix_append leaving left)

theorem Reached.exited_of_joined (h : s.Reached r) (hi : i ∈ r.joined) :
    s.threads i = .exited := by
  obtain ⟨leaving, left, hl⟩ := h.linked
  exact (hl.exited i).mp (hl.joined_suffix.subset hi)

/-- A thread takes over one thread at most. -/
theorem Reached.length_le_one (h : s.Reached r) {last : List ℕ} (hi : s.threads i = .join last) :
    last.length ≤ 1 := by
  obtain ⟨leaving, left, hl⟩ := h.linked
  have hmem := (h.each i).retired (by simp [hi]) (h.not_mem_workers (by simp [hi]) (by simp [hi]))
  rw [hl.retired, List.mem_append, hl.exited, hi, or_iff_left (by simp)] at hmem
  obtain ⟨pre, post, hsplit⟩ := List.append_of_mem hmem
  rcases hl.holds pre i post hsplit with hx | hx <;> cases hi.symm.trans hx
  exact List.length_take_le 1 _

theorem perm_range {l : List ℕ} {n : ℕ} (hl : l.Nodup) (h : ∀ i, i ∈ l ↔ i < n) :
    l.Perm (List.range n) :=
  (List.perm_ext_iff_of_nodup hl List.nodup_range).mpr fun i => by rw [h, List.mem_range]

theorem Reached.mem_retired_iff (h : s.Reached r) (hw : s.workers = []) :
    i ∈ r.retired ↔ i < s.tasks.length := by
  constructor
  · intro hi
    obtain ⟨leaving, left, hl⟩ := h.linked
    rw [hl.retired, List.mem_append, hl.exited] at hi
    rcases hi with hi | hi
    · obtain ⟨last, hx | hx⟩ := hl.of_mem hi <;> exact h.lt_length (by simp [hx])
    · exact h.lt_length (by simp [hi])
  · intro hi
    refine (h.each i).retired (fun hx => ?_) (by simp [hw])
    exact absurd ((h.each i).unstarted.mp hx) (Nat.not_le.mpr hi)

theorem Reached.done_joined (h : s.Reached r) (hd : s.joining = .done) :
    r.joined = r.retired := by
  obtain ⟨leaving, left, hl⟩ := h.linked
  rw [hl.joined, if_pos hd, hl.retired, hl.none_leaving hd, List.nil_append]

theorem Reached.mem_executed_iff (h : s.Reached r) (hw : s.workers = []) :
    i ∈ r.executed ↔ i < s.tasks.length := by
  rw [(h.each i).executed, ne_eq, (h.each i).unstarted, Nat.not_le, and_iff_left_of_imp]
  intro _ hrun
  have := h.mem_workers (.inl hrun)
  simp [hw] at this

end Outcome

end ThreadExecutor

/-- Under any interleaving a task is run at most once, the threads are joined one after the other
in the order in which they retired, each at most once, behind its end and by a thread that holds
no other, and when the first call of `shutdown` returns every task that was accepted has been run
and every thread has been joined. -/
theorem thread_shutdown_joins (ops : List (ThreadOp α)) :
    let p := (((threadExecutor α).noting ThreadLog.note).run (.new, .new) ops).1
    p.2.executed.Nodup ∧ (∀ i ∈ p.2.executed, i < p.1.tasks.length) ∧
      p.2.retired.Nodup ∧ p.2.joined <:+ p.2.retired ∧
      (∀ i ∈ p.2.joined, p.1.threads i = .exited) ∧
      (∀ i last, p.1.threads i = .join last → last.length ≤ 1) ∧
      (p.1.joining = .done →
        p.1.workers = [] ∧ p.1.lastRetired = [] ∧
          p.2.executed.Perm (List.range p.1.tasks.length) ∧
          p.2.joined.Perm (List.range p.1.tasks.length)) := by
  have h := ThreadExecutor.reached_new (α := α) |>.run ops
  refine ⟨h.executed_nodup, fun i hi => h.lt_length ((h.each i).executed.mp hi).1, h.retired_nodup,
    h.joined_suffix, fun i => h.exited_of_joined, fun i last => h.length_le_one, fun hd => ?_⟩
  have hw := h.waits
  simp only [ThreadExecutor.Waits, hd] at hw
  refine ⟨hw.2.1, hw.2.2, ?_, ?_⟩
  · exact ThreadExecutor.perm_range h.executed_nodup fun i => h.mem_executed_iff hw.2.1
  · rw [h.done_joined hd]
    exact ThreadExecutor.perm_range h.retired_nodup fun i => h.mem_retired_iff hw.2.1

end Plain.Concurrency
