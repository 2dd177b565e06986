import Plain.Concurrency.ThreadExecutor
import Mathlib.Algebra.BigOperators.Group.Finset.Basic

/-! # The end of the thread executor

Each step of a worker and of the call of `shutdown` brings the executor nearer to its end, and
there is such a step as long as the call has not returned. A task that stops its own executor is
waited for by its own call.
-/

namespace Plain.Concurrency

variable {α : Type*}

/-- The step is made by a worker or by the first call of `shutdown`, and not for a reason from
outside. -/
def ThreadOp.inner : ThreadOp α → Bool
  | .work _ | .stop => true
  | .enqueue _ | .shutdown _ | .wake => false

/-- A bound for the steps that are left. A thread that notifies costs the waiting call one more
test. -/
def Retiring.effort : Retiring → ℕ
  | .unstarted | .exited => 0
  | .running => 8
  | .retire => 6
  | .notify _ => 4
  | .join _ => 2

def Joining.effort : Joining → ℕ
  | .idle => 4
  | .lock => 3
  | .check => 2
  | .wait | .join _ => 1
  | .done => 0

namespace ThreadExecutor

def effort (s : ThreadExecutor α) : ℕ :=
  ∑ i ∈ Finset.range s.tasks.length, (s.threads i).effort + s.joining.effort

section Returns

variable {s : ThreadExecutor α} {r : ThreadLog} {leaving left : List ℕ} {i : ℕ}

theorem effort_setThread (hi : i < s.tasks.length) (next : Retiring) :
    (s.setThread i next).effort + (s.threads i).effort = s.effort + next.effort := by
  have hmem : i ∈ Finset.range s.tasks.length := Finset.mem_range.mpr hi
  have hafter := Finset.add_sum_erase _ (fun j => ((s.setThread i next).threads j).effort) hmem
  have hbefore := Finset.add_sum_erase _ (fun j => (s.threads j).effort) hmem
  have hrest : ∑ j ∈ (Finset.range s.tasks.length).erase i,
        ((s.setThread i next).threads j).effort =
      ∑ j ∈ (Finset.range s.tasks.length).erase i, (s.threads j).effort :=
    Finset.sum_congr rfl fun j hj => by
      rw [threads_setThread_of_ne (Finset.ne_of_mem_erase hj)]
  rw [threads_setThread_self, hrest] at hafter
  unfold effort
  change ∑ j ∈ Finset.range s.tasks.length, ((s.setThread i next).threads j).effort +
    s.joining.effort + _ = _
  omega

theorem effort_wake_le : s.wake.effort ≤ s.effort + 1 := by
  unfold ThreadExecutor.wake
  cases hj : s.joining with
  | wait => simp [effort, hj, Joining.effort]
  | idle | lock | check | join | done => simp

theorem effort_proceed_lt (hj : 1 < s.joining.effort) {abort : Bool} :
    { s with abort := abort }.proceed.effort < s.effort := by
  unfold ThreadExecutor.proceed effort
  split
  · exact Nat.add_lt_add_left hj _
  · exact Nat.add_lt_add_left (Nat.zero_lt_of_lt hj) _
  · exact Nat.add_lt_add_left hj _

theorem Reached.work_lt (h : s.Reached r) (hs : s.stopped i = false) (hl : s.locked = false)
    (hi : s.threads i = .running ∨ s.threads i = .retire) : (s.work i).effort < s.effort := by
  have hlt : i < s.tasks.length := h.lt_length (by rcases hi with hi | hi <;> simp [hi])
  unfold ThreadExecutor.work
  rcases hi with hi | hi
  · have := effort_setThread hlt .retire
    simp only [hi, hs, Retiring.effort] at this ⊢
    rw [if_neg Bool.false_ne_true]
    omega
  · have := effort_setThread hlt (.notify s.lastRetired)
    simp only [hi, hl, Retiring.effort] at this ⊢
    rw [if_neg Bool.false_ne_true]
    change (s.setThread i (.notify s.lastRetired)).effort < _
    omega

theorem Reached.notify_lt (h : s.Reached r) {last : List ℕ} (hi : s.threads i = .notify last) :
    (s.work i).effort < s.effort := by
  have hlt : i < s.wake.tasks.length :=
    h.wake.lt_length (by rw [threads_wake, hi]; simp)
  have hset := effort_setThread hlt (.join last)
  have hwake := effort_wake_le (s := s)
  simp only [ThreadExecutor.work, hi, Retiring.effort, threads_wake] at hset ⊢
  omega

theorem Reached.exit_lt (h : s.Reached r) {last : List ℕ} (hi : s.threads i = .join last)
    (hlast : ∀ t ∈ last.head?, s.threads t = .exited) : (s.work i).effort < s.effort := by
  have hset := effort_setThread (h.lt_length (i := i) (by simp [hi])) .exited
  simp only [ThreadExecutor.work, hi, Retiring.effort] at hset ⊢
  cases last with
  | nil =>
    simp only
    omega
  | cons t last =>
    simp only [if_pos (hlast t (by simp))]
    omega

/-- While threads are leaving, the one that retired first can make a step. -/
theorem Linked.exists_lt (h : s.Linked r leaving left) (hr : s.Reached r)
    (hne : leaving ≠ []) : ∃ i, (s.work i).effort < s.effort := by
  obtain ⟨pre, i, rfl⟩ := (List.eq_nil_or_concat leaving).resolve_left hne
  refine ⟨i, ?_⟩
  rcases h.holds pre i [] (by simp) with hi | hi
  · exact hr.notify_lt hi
  · refine hr.exit_lt hi fun t ht => (h.exited t).mp ?_
    cases left with
    | nil => simp at ht
    | cons u left =>
      obtain rfl : u = t := by simpa using ht
      exact List.mem_cons_self

/-- As long as a call from outside has not returned, there is a step that brings it nearer to
that. -/
theorem Reached.exists_lt (h : s.Reached r) (hc : s.caller = none) (hidle : s.joining ≠ .idle)
    (hdone : s.joining ≠ .done) :
    ∃ op : ThreadOp α, op.inner = true ∧ ((threadExecutor α).step s op).1.effort < s.effort := by
  have hwork : (∃ i, (s.work i).effort < s.effort) →
      ∃ op : ThreadOp α, op.inner = true ∧ ((threadExecutor α).step s op).1.effort < s.effort :=
    fun ⟨i, hi⟩ => ⟨.work i, rfl, hi⟩
  have hs : ∀ i, s.stopped i = false := fun i => by
    unfold stopped
    split <;> simp [hc]
  have hw := h.waits
  cases hj : s.joining with
  | idle => exact absurd hj hidle
  | done => exact absurd hj hdone
  | lock | check =>
    refine ⟨.stop, rfl, ?_⟩
    simp only [threadExecutor, ThreadExecutor.stop, hj]
    exact effort_proceed_lt (by simp [hj, Joining.effort])
  | wait =>
    refine hwork ?_
    simp only [Waits, hj] at hw
    have hl : s.locked = false := by simp [locked, hj]
    cases hws : s.workers with
    | nil =>
      obtain ⟨i, last, hi⟩ := hw.2 hws
      exact ⟨i, h.notify_lt hi⟩
    | cons i workers => exact ⟨i, h.work_lt (hs i) hl ((h.each i).workers.mp (by simp [hws]))⟩
  | join t =>
    simp only [Waits, hj] at hw
    obtain ⟨leaving, left, hlink⟩ := h.linked
    by_cases hne : leaving = []
    · refine ⟨.stop, rfl, ?_⟩
      have ht : s.threads t = .exited := by
        have hlast := h.lastRetired hdone
        rw [hw.2.2, hlink.retired, hne, List.nil_append] at hlast
        refine (hlink.exited t).mp (List.mem_of_mem_take (i := 1) ?_)
        rw [← hlast]
        exact List.mem_cons_self
      simp only [threadExecutor, ThreadExecutor.stop, hj, if_pos ht]
      simp [effort, hj, Joining.effort]
    · exact hwork (hlink.exists_lt h hne)

theorem wake_keeps (h : s.joining ≠ .idle) :
    s.wake.caller = s.caller ∧ s.wake.joining ≠ .idle := by
  unfold ThreadExecutor.wake
  split
  · exact ⟨rfl, by simp⟩
  all_goals exact ⟨rfl, h⟩

theorem proceed_keeps : s.proceed.caller = s.caller ∧ s.proceed.joining ≠ .idle := by
  unfold ThreadExecutor.proceed
  split <;> simp

theorem inner_keeps {op : ThreadOp α} (hop : op.inner = true) (h : s.joining ≠ .idle) :
    ((threadExecutor α).step s op).1.caller = s.caller ∧
      ((threadExecutor α).step s op).1.joining ≠ .idle := by
  cases op with
  | enqueue | shutdown | wake => cases hop
  | work i =>
    simp only [threadExecutor, ThreadExecutor.work]
    split
    · exact ⟨rfl, h⟩
    · exact ⟨rfl, h⟩
    · split <;> exact ⟨rfl, h⟩
    · split <;> exact ⟨rfl, h⟩
    · exact wake_keeps h
    · exact ⟨rfl, h⟩
    · split <;> exact ⟨rfl, h⟩
  | stop =>
    simp only [threadExecutor, ThreadExecutor.stop]
    split
    · exact ⟨rfl, h⟩
    · exact ⟨rfl, h⟩
    · exact ⟨rfl, h⟩
    · exact proceed_keeps
    · exact proceed_keeps
    · split
      · exact ⟨rfl, by simp⟩
      · exact ⟨rfl, h⟩

theorem Reached.returns (h : s.Reached r) (hc : s.caller = none) (hidle : s.joining ≠ .idle) :
    ∃ ops : List (ThreadOp α), (∀ op ∈ ops, op.inner = true) ∧
      ((threadExecutor α).run s ops).1.joining = .done := by
  induction hn : s.effort using Nat.strong_induction_on generalizing s r with
  | _ n ih =>
    by_cases hdone : s.joining = .done
    · exact ⟨[], by simp, hdone⟩
    · obtain ⟨op, hop, hlt⟩ := h.exists_lt hc hidle hdone
      obtain ⟨hc', hidle'⟩ := inner_keeps hop hidle
      obtain ⟨ops, hops, hdone'⟩ := ih _ (hn ▸ hlt) (h.step op) (hc'.trans hc) hidle' rfl
      exact ⟨op :: ops, List.forall_mem_cons.mpr ⟨hop, hops⟩, hdone'⟩

end Returns

end ThreadExecutor

/-- A call of `shutdown` that is made from outside can always still return, by the steps of the
workers and of the call alone; one that is made by a task of the executor never does. -/
theorem thread_shutdown_returns (ops : List (ThreadOp α))
    (hcalled : ((threadExecutor α).run .new ops).1.joining ≠ .idle) :
    let s := ((threadExecutor α).run .new ops).1
    (s.caller = none → ∃ more : List (ThreadOp α), (∀ op ∈ more, op.inner = true) ∧
      ((threadExecutor α).run s more).1.joining = .done) ∧
    (s.caller ≠ none → s.joining ≠ .done) := by
  have h := ThreadExecutor.reached_new (α := α) |>.run ops
  simp only [Machine.run_noting_fst] at h
  refine ⟨fun hc => h.returns hc hcalled, fun hc hd => ?_⟩
  obtain ⟨i, hi⟩ := Option.ne_none_iff_exists'.mp hc
  have hmem := h.mem_workers (.inl (h.caller i hi).1)
  rw [h.waits.workers_eq_nil (.inr hd)] at hmem
  exact absurd hmem List.not_mem_nil

/-- Two threads are started and stopped from outside. -/
theorem thread_shutdown_returns_two :
    let s := ((threadExecutor ℕ).run .new [.enqueue [4, 7], .shutdown none, .stop]).1
    s.joining ≠ .idle ∧ s.caller = none ∧
      ∃ more : List (ThreadOp ℕ), (∀ op ∈ more, op.inner = true) ∧
        ((threadExecutor ℕ).run s more).1.joining = .done := by
  have hcalled : ((threadExecutor ℕ).run .new
      [.enqueue [4, 7], .shutdown none, .stop]).1.joining ≠ .idle := by decide
  exact ⟨hcalled, rfl, (thread_shutdown_returns _ hcalled).1 rfl⟩

end Plain.Concurrency
