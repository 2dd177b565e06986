import Plain.Engine.TimerEvents

/-! # A timer that holds up the queue

The pass of the worker goes on as long as the first timer is due at the time at which the pass
began. A repeating timer whose frequency is not positive stays due, so the worker neither takes
requests nor notices a shutdown until the clock has left the frequency behind.
-/

namespace Plain.Engine

/-- A step that neither cancels the timer nor sets its frequency, and in which the clock shows a
time from which the frequency leads to a deadline that is not behind `now`. -/
def TimerOp.Spares (k : ℕ) (frequency now : ℤ) : TimerOp → Prop
  | .cancel j | .setFrequency j _ => j ≠ k
  | .work time _ _ => -2 ^ 63 ≤ time + 1000000 * frequency ∧ time + 1000000 * frequency ≤ now
  | .makeTimer _ _ _ _ | .notify | .remove _ | .execute _ | .call _ | .shutdown => True

theorem makeDeadline_eq {time milliseconds : ℤ} (hlo : -2 ^ 63 ≤ time + 1000000 * milliseconds)
    (hhi : time + 1000000 * milliseconds < 2 ^ 63) :
    makeDeadline time milliseconds = time + 1000000 * milliseconds :=
  Int.bmod_eq_of_le (by omega) (by omega)

namespace TimerQueue

/-- The worker is in a pass that began `now`, with a repeating timer that is due. -/
structure Busy (s : TimerQueue) (k : ℕ) (frequency now : ℤ) : Prop where
  pass : s.working.now = some now
  repeats : (s.states k).isOneshot = false
  active : (s.states k).cancelled = false
  frequency : (s.states k).frequency = frequency
  clock : now < 2 ^ 63
  here : k ∈ s.internal.timers ∧ s.deadline k ≤ now ∨ (now, k) ∈ s.working.inHand

variable {s s' : TimerQueue} {k : ℕ} {frequency now : ℤ}

theorem Busy.congr (h : s.Busy k frequency now) (hstate : s'.states k = s.states k)
    (hinternal : s'.internal = s.internal) (hworking : s'.working = s.working) :
    s'.Busy k frequency now where
  pass := hworking ▸ h.pass
  repeats := hstate ▸ h.repeats
  active := hstate ▸ h.active
  frequency := hstate ▸ h.frequency
  clock := h.clock
  here := by
    rw [deadline, hstate, hinternal, hworking]
    exact h.here

theorem Busy.lt_size (h : s.Busy k frequency now) (hreached : s.Reached) : k < s.size := by
  rcases h.here with ⟨hk, -⟩ | hk
  · exact hreached.bounded k (hreached.mem_known hk)
  · exact hreached.bounded k (hreached.mem_known_of_inHand hk)

theorem Busy.present (h : s.Busy k frequency now) : s.working ≠ .absent := by
  intro hw
  have hpass := h.pass
  rw [hw] at hpass
  cases hpass

theorem Busy.makeTimer {dueTime frequency' time : ℤ} {isOneshot : Bool}
    (h : s.Busy k frequency now) (hreached : s.Reached)
    (heq : s.makeTimer dueTime frequency' isOneshot time = some s') :
    s'.Busy k frequency now := by
  unfold TimerQueue.makeTimer at heq
  split at heq
  · cases heq
  cases heq
  refine h.congr (Function.update_of_ne (Nat.ne_of_lt (h.lt_size hreached)) _ _) rfl ?_
  rcases hreached.start with hw | ⟨-, hw⟩
  · exact hw
  · exact absurd hw h.present

theorem Busy.look (h : s.Busy k frequency now) (hreached : s.Reached)
    (hw : s.working = .pass now) : (s.look now).Busy k frequency now := by
  obtain ⟨hk, hdue⟩ := h.here.resolve_right (by rw [hw]; exact List.not_mem_nil)
  unfold TimerQueue.look
  cases htimers : s.internal.timers with
  | nil =>
    rw [htimers] at hk
    cases hk
  | cons j timers =>
    have hordered := hreached.ordered
    rw [htimers] at hk hordered
    -- The first timer is not later than ours.
    have hj : (s.states j).deadline ≤ now := (hordered.le_of_mem_cons hk).trans hdue
    simp only [if_pos hj]
    refine { h with pass := rfl, here := ?_ }
    rcases List.mem_cons.mp hk with rfl | hk
    · exact .inr (List.mem_singleton_self _)
    · exact .inl ⟨hk, hdue⟩

theorem Busy.fire_self {time : ℤ} (h : s.Busy k frequency now)
    (htime : -2 ^ 63 ≤ time + 1000000 * frequency ∧ time + 1000000 * frequency ≤ now)
    (shutdownRequested : Bool) :
    ((s.fire k time shutdownRequested).putBack now k).Busy k frequency now := by
  have hstate : ((s.fire k time shutdownRequested).putBack now k).states k =
      { s.states k with deadline := makeDeadline time (s.states k).frequency } :=
    Function.update_self _ _ _
  refine ⟨rfl, hstate ▸ h.repeats, hstate ▸ h.active, hstate ▸ h.frequency, h.clock,
    .inl ⟨perm_insertBy.mem_iff.mpr List.mem_cons_self, ?_⟩⟩
  rw [deadline, hstate, h.frequency]
  exact (makeDeadline_eq htime.1 (Int.lt_of_le_of_lt htime.2 h.clock)).trans_le htime.2

theorem Busy.fire_other {j : ℕ} {internal : TimerQueueInternal} (h : s.Busy k frequency now)
    (hw : s.working = .firing now j) (hjk : j ≠ k)
    (hinternal : k ∈ s.internal.timers → k ∈ internal.timers) (time : ℤ)
    (shutdownRequested : Bool) :
    Busy { s.fire j time shutdownRequested with internal := internal, working := .pass now }
      k frequency now := by
  obtain ⟨hk, hdue⟩ := h.here.resolve_right (by rw [hw]; simp [Working.inHand, Ne.symm hjk])
  have hstate : (s.fire j time shutdownRequested).states k = s.states k :=
    Function.update_of_ne (Ne.symm hjk) _ _
  refine ⟨rfl, hstate ▸ h.repeats, hstate ▸ h.active, hstate ▸ h.frequency, h.clock,
    .inl ⟨hinternal hk, ?_⟩⟩
  rw [deadline, hstate]
  exact hdue

theorem Busy.work {time : ℤ} (h : s.Busy k frequency now) (hreached : s.Reached)
    (htime : -2 ^ 63 ≤ time + 1000000 * frequency ∧ time + 1000000 * frequency ≤ now)
    (timeout shutdownRequested : Bool) :
    (s.work time timeout shutdownRequested).Busy k frequency now := by
  have hpass := h.pass
  cases hw : s.working with
  | absent | lock | waiting | clock =>
    rw [hw] at hpass
    cases hpass
  | requests todo =>
    rw [hw] at hpass
    cases hpass
  | pass t =>
    rw [hw] at hpass
    cases hpass
    simp only [TimerQueue.work, hw]
    exact h.look hreached hw
  | extracted t j =>
    rw [hw] at hpass
    cases hpass
    simp only [TimerQueue.work, hw]
    split
    · next hcancelled =>
      refine { h with pass := rfl, here := .inl (h.here.resolve_right fun hin => ?_) }
      rw [hw] at hin
      cases List.mem_singleton.mp hin
      cases h.active.symm.trans hcancelled
    · refine { h with pass := rfl, here := h.here.imp id fun hin => ?_ }
      rw [hw] at hin
      exact hin
  | firing t j =>
    rw [hw] at hpass
    cases hpass
    have hmem : j ∈ s.internal.iteratorMapper :=
      (hreached.taken (.inr hw)).1.mem_iff.mpr List.mem_cons_self
    simp only [TimerQueue.work, hw, if_pos hmem]
    by_cases hjk : j = k
    · -- our own timer repeats, and its next deadline is not behind the pass
      subst hjk
      rw [if_neg (by rw [h.repeats]; exact Bool.false_ne_true)]
      exact h.fire_self htime shutdownRequested
    · split
      · refine h.fire_other hw hjk (fun hk => ?_) time shutdownRequested
        exact hk
      · refine h.fire_other hw hjk (fun hk => ?_) time shutdownRequested
        exact perm_insertBy.mem_iff.mpr (List.mem_cons_of_mem j hk)

theorem Busy.step (h : s.Busy k frequency now) (hreached : s.Reached) {op : TimerOp}
    (hop : op.Spares k frequency now) : (timerQueue.step s op).1.Busy k frequency now := by
  cases op with
  | makeTimer dueTime frequency' isOneshot time =>
    simp only [timerQueue]
    split
    · exact h
    · next heq => exact h.makeTimer hreached heq
  | notify =>
    simp only [timerQueue]
    split
    · exact h
    · exact h.congr rfl rfl rfl
  | cancel j =>
    simp only [timerQueue, TimerQueue.cancel]
    split
    · exact h.congr (Function.update_of_ne (Ne.symm hop) _ _) rfl rfl
    · exact h
  | remove j =>
    simp only [timerQueue, TimerQueue.remove]
    split
    · exact h.congr rfl rfl rfl
    · exact h
  | setFrequency j frequency' =>
    simp only [timerQueue]
    split
    · exact h.congr (Function.update_of_ne (Ne.symm hop) _ _) rfl rfl
    · exact h
  | work time timeout shutdownRequested => exact h.work hreached hop timeout shutdownRequested
  | execute j =>
    simp only [timerQueue, TimerQueue.execute]
    split
    · exact h.congr rfl rfl rfl
    · exact h
  | call j => exact h.congr rfl rfl rfl
  | shutdown =>
    simp only [timerQueue, TimerQueue.shutdown]
    split
    · exact h.congr rfl rfl rfl
    · split <;> exact h.congr rfl rfl rfl
    · exact h.congr rfl rfl rfl
    · split
      · exact h.congr rfl rfl rfl
      · exact h
    · exact h

end TimerQueue

/-- Once a repeating timer is due in a pass, the worker does not get out of the pass, as long as
nobody cancels this timer or sets its frequency and the deadlines that the frequency gives at the
times of the clock fit into 64 bits and are not behind the beginning of the pass. Neither a
cancellation of another timer nor a shutdown gets through. -/
theorem timerQueue_starves (ops more : List TimerOp) (k : ℕ) (frequency now : ℤ)
    (hbusy : (runTimers ops).1.Busy k frequency now)
    (hmore : ∀ op ∈ more, op.Spares k frequency now) :
    let s := (runTimers (ops ++ more)).1
    s.working.now = some now ∧ (s.closing = .join → s.shutdown = s) := by
  intro s
  have hrun : s.Reached ∧ s.Busy k frequency now := by
    have hinvariant := (timerQueue.noting TimerEvent.note).run_invariant
      (P := fun r => r.1.Reached ∧ r.1.Busy k frequency now)
      (fun _ _ h hop => ⟨h.1.step _, h.2.step h.1 hop⟩) ⟨(runTimers_reached ops).1, hbusy⟩
      (Machine.along_of_forall_mem _ hmore)
    rw [runTimers, ← Machine.run_append] at hinvariant
    exact hinvariant
  refine ⟨hrun.2.pass, fun hc => ?_⟩
  have hpresent := hrun.2.present
  unfold TimerQueue.shutdown
  rw [hc]
  cases hw : s.working with
  | absent => exact absurd hw hpresent
  | _ => rfl

/-- The run in which the worker gets a timer with a frequency of minus one millisecond. -/
def starvingOps : List TimerOp :=
  [.makeTimer 0 (-1) false 0] ++ List.replicate 4 (.work 0 false false)

theorem timerQueue_starves_three :
    (runTimers starvingOps).1.Busy 0 (-1) 0 ∧
      (runTimers (starvingOps ++ List.replicate 3 (.work 999999 false false))).1.working.now =
        some 0 := by
  have hbusy : (runTimers starvingOps).1.Busy 0 (-1) 0 := by
    refine ⟨by decide, by decide, by decide, by decide, by decide, .inl ⟨by decide, by decide⟩⟩
  refine ⟨hbusy, (timerQueue_starves starvingOps _ 0 (-1) 0 hbusy ?_).1⟩
  rintro op hop
  rw [List.eq_of_mem_replicate hop]
  exact ⟨by decide, by decide⟩

end Plain.Engine
