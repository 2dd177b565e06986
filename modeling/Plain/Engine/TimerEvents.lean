import Plain.Engine.TimerRuns

/-! # When timers are fired

The events of a run tell when timers were made, fired and cancelled. A timer is not fired before
its deadline, one that is neither cancelled nor done is not lost, and none passes the test of
`execute` after it was cancelled.
-/

namespace Plain.Engine

/-- What has happened to timers: one was made at a time of the clock; it was cancelled; a pass of
the worker began; a timer was fired, at a time and with the frequency found then; it was found not
to be cancelled; its callable was called. -/
inductive TimerEvent where
  | made (k : ℕ) (dueTime time : ℤ)
  | cancelled (k : ℕ)
  | began (now : ℤ)
  | fired (k : ℕ) (time frequency : ℤ)
  | tested (k : ℕ)
  | ran (k : ℕ)
  deriving DecidableEq, Repr

def TimerEvent.note (s : TimerQueue) (log : List TimerEvent) : TimerOp → List TimerEvent
  | .makeTimer dueTime _ _ now => if s.abort then log else .made s.size dueTime now :: log
  | .cancel k =>
      if k < s.size ∧ (s.states k).cancelled = false then .cancelled k :: log else log
  | .work time _ _ =>
      match s.working with
      | .clock => .began time :: log
      | .firing _ k => .fired k time (s.states k).frequency :: log
      | _ => log
  | .execute k =>
      if k ∈ s.posted ∧ (s.states k).cancelled = false then .tested k :: log else log
  | .call k => if k ∈ s.calling then .ran k :: log else log
  | .notify | .remove _ | .setFrequency _ _ | .shutdown => log

/-- When a timer is due by the last event that set its deadline. -/
def dueAfter (k : ℕ) : List TimerEvent → Option ℤ
  | [] => none
  | .made j dueTime time :: log =>
      if j = k then some (time + 1000000 * dueTime) else dueAfter k log
  | .fired j time frequency :: log =>
      if j = k then some (time + 1000000 * frequency) else dueAfter k log
  | .cancelled _ :: log | .began _ :: log | .tested _ :: log | .ran _ :: log => dueAfter k log

def lastPass : List TimerEvent → Option ℤ
  | [] => none
  | .began now :: _ => some now
  | .made _ _ _ :: log | .fired _ _ _ :: log | .cancelled _ :: log | .tested _ :: log
  | .ran _ :: log => lastPass log

/-- Each timer is fired in a pass that began when it was due or later, by a clock of 64 bits. -/
def OnTime : List TimerEvent → Prop
  | [] => True
  | .fired k _ _ :: log =>
      (∃ due now, dueAfter k log = some due ∧ lastPass log = some now ∧
        due.bmod (2 ^ 64) ≤ now) ∧ OnTime log
  | .made _ _ _ :: log | .began _ :: log | .cancelled _ :: log | .tested _ :: log
  | .ran _ :: log => OnTime log

def fires (k : ℕ) : List TimerEvent → ℕ
  | [] => 0
  | .fired j _ _ :: log => fires k log + if j = k then 1 else 0
  | .made _ _ _ :: log | .began _ :: log | .cancelled _ :: log | .tested _ :: log
  | .ran _ :: log => fires k log

def tests (k : ℕ) (log : List TimerEvent) : ℕ := log.count (.tested k)

def runs (k : ℕ) (log : List TimerEvent) : ℕ := log.count (.ran k)

section Counts

variable {k : ℕ} {log : List TimerEvent}

theorem tests_cons (e : TimerEvent) :
    tests k (e :: log) = tests k log + if e = .tested k then 1 else 0 := by
  simp [tests, List.count_cons]

theorem runs_cons (e : TimerEvent) :
    runs k (e :: log) = runs k log + if e = .ran k then 1 else 0 := by
  simp [runs, List.count_cons]

end Counts

/-- The later event is no test that misses the earlier cancellation. -/
def TimerEvent.Heeds (later earlier : TimerEvent) : Prop :=
  ∀ k, earlier = .cancelled k → later ≠ .tested k

theorem pairwise_heeds_cons {e : TimerEvent} {log : List TimerEvent} (he : ∀ k, e ≠ .tested k)
    (h : log.Pairwise TimerEvent.Heeds) : (e :: log).Pairwise TimerEvent.Heeds :=
  List.pairwise_cons.mpr ⟨fun _ _ k _ => he k, h⟩

def Working.now : Working → Option ℤ
  | .pass now | .extracted now _ | .firing now _ => some now
  | _ => none

def Working.waits : Working → Bool
  | .lock | .waiting => true
  | _ => false

namespace TimerQueue

variable {s s' : TimerQueue} {log : List TimerEvent}

structure Logged (s : TimerQueue) (log : List TimerEvent) : Prop where
  deadlines : ∀ k < s.size, (dueAfter k log).map (Int.bmod · (2 ^ 64)) = some (s.deadline k)
  onTime : OnTime log
  pass : ∀ now, s.working.now = some now → lastPass log = some now
  passed : s.working.waits = true → ∀ now, lastPass log = some now →
    ∀ k ∈ s.internal.timers, now < s.deadline k
  kept : s.abort = false → ∀ k < s.size, (s.states k).cancelled = false →
    ((s.states k).isOneshot = true → fires k log = 0) → k ∈ s.known
  oneshot : ∀ k, (s.states k).isOneshot = true →
    fires k log ≤ 1 ∧ (k ∈ s.known → fires k log = 0)
  fresh : ∀ k, s.size ≤ k → fires k log = 0
  cancelled : ∀ k, .cancelled k ∈ log → k < s.size ∧ (s.states k).cancelled = true
  heeded : log.Pairwise TimerEvent.Heeds
  tested : ∀ k, tests k log + s.posted.count k ≤ fires k log
  called : ∀ k, runs k log + s.calling.count k ≤ tests k log

theorem Logged.new : new.Logged [] where
  deadlines := nofun
  onTime := trivial
  pass := nofun
  passed := nofun
  kept _ := nofun
  oneshot := nofun
  fresh _ _ := rfl
  cancelled := nofun
  heeded := .nil
  tested _ := Nat.le_refl 0
  called _ := Nat.le_refl 0

theorem Logged.move (h : s.Logged log) (hstates : s'.states = s.states) (hsize : s'.size = s.size)
    (hposted : s'.posted = s.posted ∧ s'.calling = s.calling) (hknown : ∀ k ∈ s'.known, k ∈ s.known)
    (hkept : s'.abort = false →
      s.abort = false ∧ ∀ k ∈ s.known, (s.states k).cancelled = false → k ∈ s'.known)
    (hpass : s'.working.now = none ∨ s'.working.now = s.working.now)
    (hpassed : s'.working.waits = false ∨ ∀ now, lastPass log = some now →
      ∀ k ∈ s'.internal.timers, now < s.deadline k) : s'.Logged log where
  deadlines k hk := by
    rw [deadline, hstates]
    exact h.deadlines k (hsize ▸ hk)
  onTime := h.onTime
  pass now hw := by
    rcases hpass with hpass | hpass
    · cases hpass.symm.trans hw
    · exact h.pass now (hpass ▸ hw)
  passed hw now hn k hk := by
    rcases hpassed with hpassed | hpassed
    · cases hpassed.symm.trans hw
    · rw [deadline, hstates]
      exact hpassed now hn k hk
  kept ha k hk hc ho := by
    rw [hstates] at hc ho
    obtain ⟨ha', hkeeps⟩ := hkept ha
    exact hkeeps k (h.kept ha' k (hsize ▸ hk) hc ho) hc
  oneshot k ho := (h.oneshot k (hstates ▸ ho)).imp id fun hf hk => hf (hknown k hk)
  fresh k hk := h.fresh k (hsize ▸ hk)
  cancelled k hk := by
    rw [hstates, hsize]
    exact h.cancelled k hk
  heeded := h.heeded
  tested k := hposted.1 ▸ h.tested k
  called k := hposted.2 ▸ h.called k

theorem Logged.same (h : s.Logged log) (hstates : s'.states = s.states) (hsize : s'.size = s.size)
    (hposted : s'.posted = s.posted ∧ s'.calling = s.calling) (hknown : s'.known = s.known)
    (habort : s'.abort = s.abort)
    (hpass : s'.working.now = none ∨ s'.working.now = s.working.now)
    (hpassed : s'.working.waits = false ∨ ∀ now, lastPass log = some now →
      ∀ k ∈ s'.internal.timers, now < s.deadline k) : s'.Logged log := by
  refine h.move hstates hsize hposted (fun k hk => hknown ▸ hk) (fun ha => ?_) hpass hpassed
  exact ⟨habort ▸ ha, fun k hk _ => hknown ▸ hk⟩

theorem Logged.proceed (h : s.Logged log) (hw : s.working = .lock ∨ s.working = .waiting) :
    s.proceed.Logged log := by
  have htodo : s.working.todo = [] := by rcases hw with hw | hw <;> rw [hw] <;> rfl
  have hknown : s.known = added s.requestQueue ++ s.internal.iteratorMapper := by
    rw [known, pending, htodo]
    rfl
  unfold TimerQueue.proceed
  split
  · next ha =>
    refine h.move rfl rfl ⟨rfl, rfl⟩ (fun k hk => ?_) (fun ha' => ?_) (.inl rfl) (.inl rfl)
    · rw [hknown]
      exact (List.Sublist.append_left (List.nil_sublist _) _).subset hk
    · cases ha.symm.trans ha'
  · have hsame : added (s.requestQueue ++ []) ++ s.internal.iteratorMapper = s.known := by
      rw [hknown, List.append_nil]
    exact h.same rfl rfl ⟨rfl, rfl⟩ hsame rfl (.inl rfl) (.inl rfl)

theorem Logged.wake (h : s.Logged log) (hreached : s.Reached) (hw : s.working = .waiting)
    (timeout : Bool) : (s.wake timeout).Logged log := by
  unfold TimerQueue.wake
  split
  · exact h.proceed (.inr hw)
  next hr =>
  split
  · split
    · next htimers =>
      have hqueue : s.requestQueue = [] := by
        simp only [ready, Bool.or_eq_true, not_or] at hr
        simpa using hr.1
      have hmapper : s.internal.iteratorMapper = [] := by
        have hperm := hreached.mapper_perm (by rw [hw]; rfl)
        rw [List.isEmpty_iff.mp htimers] at hperm
        exact hperm.eq_nil
      have hknown : s.known = [] := by
        rw [known, pending, hw, hqueue, hmapper]
        rfl
      refine h.move rfl rfl ⟨rfl, rfl⟩ (fun k hk => ?_) (fun ha => ⟨ha, fun k hk => ?_⟩)
        (.inl rfl) (.inl rfl)
      · simp [known, pending, Working.todo, hqueue, added] at hk
      · rw [hknown] at hk
        cases hk
    · exact h.proceed (.inr hw)
  · exact h.same rfl rfl ⟨rfl, rfl⟩ rfl rfl (.inr rfl) (.inr (h.passed (by rw [hw]; rfl)))

theorem Logged.request {k : ℕ} {request : TimerRequest} {todo : List (ℕ × TimerRequest)}
    {internal : TimerQueueInternal} (h : s.Logged log) (hreached : s.Reached)
    (hw : s.working = .requests ((k, request) :: todo))
    (heq : s.internal.request s.states k request = some internal) :
    Logged { s with internal := internal, working := .requests todo } log := by
  have hknown : s.known =
      added ((k, request) :: (todo ++ s.requestQueue)) ++ s.internal.iteratorMapper := by
    rw [known, pending, hw]
    rfl
  cases request with
  | add =>
    simp only [TimerQueueInternal.request, TimerQueueInternal.addTimer] at heq
    split at heq
    · cases heq
    cases heq
    have hperm : s.known.Perm (added (todo ++ s.requestQueue) ++ k :: s.internal.iteratorMapper) :=
      hknown ▸ List.perm_middle.symm
    exact h.move rfl rfl ⟨rfl, rfl⟩ (fun j hj => hperm.mem_iff.mpr hj)
      (fun ha => ⟨ha, fun j hj _ => hperm.mem_iff.mp hj⟩) (.inl rfl) (.inl rfl)
  | remove =>
    have hcancelled : (s.states k).cancelled = true := by
      refine (hreached.removes k ?_).2
      rw [pending, hw]
      exact List.mem_cons_self
    have hmove : ∀ internal : TimerQueueInternal,
        internal.iteratorMapper.Sublist s.internal.iteratorMapper →
        (∀ j ∈ s.internal.iteratorMapper, j ≠ k → j ∈ internal.iteratorMapper) →
        Logged { s with internal := internal, working := .requests todo } log := by
      intro internal hsub hrest
      refine h.move rfl rfl ⟨rfl, rfl⟩ (fun j hj => ?_) (fun ha => ⟨ha, fun j hj hc => ?_⟩)
        (.inl rfl) (.inl rfl)
      · rw [hknown]
        exact (hsub.append_left _).subset hj
      · rw [hknown] at hj
        refine List.mem_append.mpr ((List.mem_append.mp hj).imp id fun hj => hrest j hj ?_)
        rintro rfl
        cases hcancelled.symm.trans hc
    simp only [TimerQueueInternal.request, TimerQueueInternal.removeTimer] at heq
    split at heq
    · split at heq
      · cases heq
        exact hmove _ List.erase_sublist fun j hj hjk => (List.mem_erase_of_ne hjk).mpr hj
      · cases heq
    · split at heq
      · cases heq
        exact hmove _ (.refl _) fun j hj _ => hj
      · cases heq

theorem Logged.look {now : ℤ} (h : s.Logged log) (hreached : s.Reached)
    (hw : s.working = .pass now) : (s.look now).Logged log := by
  have hperm := hreached.mapper_perm (by rw [hw]; rfl)
  have hlast : lastPass log = some now := h.pass now (by rw [hw]; rfl)
  have hknown : s.known = added s.requestQueue ++ s.internal.iteratorMapper := by
    rw [known, pending, hw]
    rfl
  unfold TimerQueue.look
  split
  · next htimers =>
    have hmapper : s.internal.iteratorMapper = [] := by
      rw [htimers] at hperm
      exact hperm.eq_nil
    rw [if_pos hmapper]
    refine h.same rfl rfl ⟨rfl, rfl⟩ hknown.symm rfl (.inl rfl) (.inr fun t _ k hk => ?_)
    rw [htimers] at hk
    cases hk
  · next k timers htimers =>
    split
    · refine h.same rfl rfl ⟨rfl, rfl⟩ hknown.symm rfl (.inr ?_) (.inl rfl)
      rw [hw]
      rfl
    · next hdue =>
      refine h.same rfl rfl ⟨rfl, rfl⟩ hknown.symm rfl (.inl rfl) (.inr fun t ht j hj => ?_)
      cases hlast.symm.trans ht
      have hordered := hreached.ordered
      rw [htimers] at hordered hj
      exact (not_le.mp hdue).trans_le (hordered.le_of_mem_cons hj)

theorem Logged.drop {now : ℤ} {k : ℕ} (h : s.Logged log) (hw : s.working = .extracted now k)
    (hcancelled : (s.states k).cancelled = true) : (s.drop now k).Logged log := by
  have hknown : s.known = added s.requestQueue ++ s.internal.iteratorMapper := by
    rw [known, pending, hw]
    rfl
  refine h.move rfl rfl ⟨rfl, rfl⟩ (fun j hj => ?_) (fun ha => ⟨ha, fun j hj hc => ?_⟩) (.inr ?_)
    (.inl rfl)
  · rw [hknown]
    exact (List.erase_sublist.append_left _).subset hj
  · rw [hknown] at hj
    have hjk : j ≠ k := by
      rintro rfl
      cases hcancelled.symm.trans hc
    exact List.mem_append.mpr
      ((List.mem_append.mp hj).imp id fun hj => (List.mem_erase_of_ne hjk).mpr hj)
  · rw [hw]
    rfl

theorem flags_setState {k : ℕ} {t : TimerState} (hc : t.cancelled = (s.states k).cancelled)
    (ho : t.isOneshot = (s.states k).isOneshot) (j : ℕ) :
    ((s.setState k t).states j).cancelled = (s.states j).cancelled ∧
      ((s.setState k t).states j).isOneshot = (s.states j).isOneshot := by
  by_cases hjk : j = k
  · subst hjk
    simpa only [setState, Function.update_self] using ⟨hc, ho⟩
  · simp only [setState, Function.update_of_ne hjk, and_self]

/-- Of the timers in the map and of those that are to be added, only the one that is fired may
leave, and only if it is fired once. -/
theorem Reached.mem_known_fired {now : ℤ} {k : ℕ} {mapper : List ℕ} (h : s.Reached)
    (hw : s.working = .firing now k) (hmapper : ∀ j, j ∈ mapper ↔
      j ∈ s.internal.iteratorMapper ∧ (j = k → (s.states k).isOneshot = false)) (j : ℕ) :
    j ∈ added s.requestQueue ++ mapper ↔
      j ∈ s.known ∧ (j = k → (s.states k).isOneshot = false) := by
  have hmem : k ∈ s.internal.iteratorMapper :=
    (h.taken (.inr hw)).1.mem_iff.mpr List.mem_cons_self
  have hadded : k ∉ added s.requestQueue := by
    intro hm
    have hnodup := h.nodup
    rw [known, pending, hw] at hnodup
    exact List.disjoint_of_nodup_append hnodup hm hmem
  rw [known, pending, hw, List.mem_append, List.mem_append, hmapper, or_and_right]
  refine or_congr ⟨fun hj => ⟨hj, ?_⟩, And.left⟩ Iff.rfl
  rintro rfl
  exact absurd hj hadded

theorem Logged.fire {now : ℤ} {k : ℕ} {internal : TimerQueueInternal} {posted : List ℕ}
    (h : s.Logged log) (hreached : s.Reached) (hw : s.working = .firing now k) (time : ℤ)
    (hposted : ∀ j, posted.count j ≤ s.posted.count j + if k = j then 1 else 0)
    (hmapper : ∀ j, j ∈ internal.iteratorMapper ↔
      j ∈ s.internal.iteratorMapper ∧ (j = k → (s.states k).isOneshot = false)) :
    Logged
      { s.setState k { s.states k with deadline := makeDeadline time (s.states k).frequency } with
        internal := internal
        working := .pass now
        posted := posted }
      (.fired k time (s.states k).frequency :: log) := by
  have hin : (now, k) ∈ s.working.inHand := by
    rw [hw]
    exact List.mem_singleton_self _
  have hmem : k ∈ s.known := hreached.mem_known_of_inHand hin
  have hk : k < s.size := hreached.bounded k hmem
  have hlast : lastPass log = some now := h.pass now (by rw [hw]; rfl)
  have hknown := hreached.mem_known_fired hw hmapper
  have hflags := flags_setState (s := s) (k := k)
    (t := { s.states k with deadline := makeDeadline time (s.states k).frequency }) rfl rfl
  constructor
  case deadlines =>
    intro j hj
    by_cases hjk : j = k
    · subst hjk
      simp only [dueAfter, if_true, deadline, setState, Function.update_self, Option.map_some,
        makeDeadline]
    · simp only [dueAfter, if_neg (Ne.symm hjk)]
      exact (h.deadlines j hj).trans (congrArg some (deadline_setState_of_ne hjk).symm)
  case onTime =>
    -- what is in hand was due when the pass began, by the deadline that the log tells
    obtain ⟨due, hdue, hdeadline⟩ := Option.map_eq_some_iff.mp (h.deadlines k hk)
    refine ⟨⟨due, now, hdue, hlast, ?_⟩, h.onTime⟩
    rw [hdeadline]
    exact hreached.due now k hin
  case pass =>
    rintro t ⟨⟩
    exact hlast
  case passed => exact fun hwaits => absurd hwaits Bool.false_ne_true
  case kept =>
    intro ha j hj hc ho
    rw [(hflags j).1] at hc
    rw [(hflags j).2] at ho
    refine (hknown j).mpr ?_
    by_cases hjk : j = k
    · -- a timer that has not been fired so far is not one that is fired once
      subst hjk
      refine ⟨hmem, fun _ => Bool.eq_false_iff.mpr fun ho' => ?_⟩
      have hzero := ho ho'
      simp [fires] at hzero
    · refine ⟨h.kept ha j hj hc fun ho' => ?_, fun e => absurd e hjk⟩
      have hzero := ho ho'
      simpa only [fires, if_neg (Ne.symm hjk), Nat.add_zero] using hzero
  case oneshot =>
    intro j ho
    rw [(hflags j).2] at ho
    obtain ⟨hle, hzero⟩ := h.oneshot j ho
    by_cases hjk : j = k
    · subst hjk
      have hz := hzero hmem
      refine ⟨by simp only [fires, hz, if_true]; omega, fun hm => ?_⟩
      exact absurd (((hknown j).mp hm).2 rfl) (by simp [ho])
    · simp only [fires, if_neg (Ne.symm hjk), Nat.add_zero]
      exact ⟨hle, fun hm => hzero ((hknown j).mp hm).1⟩
  case fresh =>
    intro j hj
    have hjk : k ≠ j := Nat.ne_of_lt (Nat.lt_of_lt_of_le hk hj)
    simp only [fires, if_neg hjk]
    exact h.fresh j hj
  case cancelled =>
    intro j hj
    obtain ⟨hlt, hc⟩ := h.cancelled j (by simpa using hj)
    exact ⟨hlt, (hflags j).1.trans hc⟩
  case heeded => exact pairwise_heeds_cons (by simp) h.heeded
  case tested =>
    intro j
    have htested := h.tested j
    have hp := hposted j
    simp only [tests_cons, fires, reduceCtorEq, if_false]
    omega
  case called =>
    intro j
    simpa [tests_cons, runs_cons, setState] using h.called j

theorem Logged.began {now : ℤ} (h : s.Logged log) (hw : s.working = .clock) :
    Logged { s with working := .pass now } (.began now :: log) := by
  have hknown : known { s with working := .pass now } = s.known := by
    rw [known, pending, known, pending, hw]
    rfl
  exact {
    deadlines := h.deadlines
    onTime := h.onTime
    pass := fun t ht => ht
    passed := fun hwaits => absurd hwaits Bool.false_ne_true
    kept := fun ha k hk hc ho => hknown.symm ▸ h.kept ha k hk hc ho
    oneshot := fun k ho => (h.oneshot k ho).imp id fun hz hk => hz (hknown ▸ hk)
    fresh := h.fresh
    cancelled := fun k hk => h.cancelled k (by simpa using hk)
    heeded := pairwise_heeds_cons (by simp) h.heeded
    tested := fun k => by simpa [tests_cons, fires] using h.tested k
    called := fun k => by simpa [tests_cons, runs_cons] using h.called k }

theorem Logged.work_firing {now : ℤ} {k : ℕ} (h : s.Logged log) (hreached : s.Reached)
    (hw : s.working = .firing now k) (time : ℤ) (timeout shutdownRequested : Bool) :
    (s.work time timeout shutdownRequested).Logged
      (.fired k time (s.states k).frequency :: log) := by
  have hmem : k ∈ s.internal.iteratorMapper :=
    (hreached.taken (.inr hw)).1.mem_iff.mpr List.mem_cons_self
  have hposted : ∀ j, (if shutdownRequested then s.posted else k :: s.posted).count j ≤
      s.posted.count j + if k = j then 1 else 0 := by
    intro j
    split
    · exact Nat.le_add_right _ _
    · simp [List.count_cons]
  simp only [TimerQueue.work, hw, if_pos hmem]
  split
  · next ho =>
    have hnodup : s.internal.iteratorMapper.Nodup :=
      hreached.nodup.sublist (List.sublist_append_right _ _)
    refine h.fire hreached hw time hposted fun j => hnodup.mem_erase_iff.trans ?_
    rw [ho, and_comm]
    simp
  · next ho =>
    refine h.fire hreached hw time hposted fun j => ?_
    simp only [Bool.eq_false_iff.mpr ho, implies_true, and_true]
    rfl

theorem Logged.work (h : s.Logged log) (hreached : s.Reached) (time : ℤ)
    (timeout shutdownRequested : Bool) :
    (s.work time timeout shutdownRequested).Logged
      (TimerEvent.note s log (.work time timeout shutdownRequested)) := by
  have hknown (htodo : s.working.todo = []) :
      added s.requestQueue ++ s.internal.iteratorMapper = s.known := by
    rw [known, pending, htodo]
    rfl
  cases hw : s.working with
  | absent =>
    simp only [TimerQueue.work, TimerEvent.note, hw]
    exact h
  | lock =>
    have hlength := (hreached.mapper_perm (by rw [hw]; rfl)).length_eq
    simp only [TimerQueue.work, TimerEvent.note, hw]
    rw [if_neg (not_not_intro hlength)]
    split
    · exact h.proceed (.inl hw)
    · exact h.same rfl rfl ⟨rfl, rfl⟩ (hknown (by rw [hw]; rfl)) rfl (.inl rfl)
        (.inr (h.passed (by rw [hw]; rfl)))
  | waiting =>
    simp only [TimerQueue.work, TimerEvent.note, hw]
    exact h.wake hreached hw timeout
  | requests todo =>
    cases todo with
    | nil =>
      simp only [TimerQueue.work, TimerEvent.note, hw]
      exact h.same rfl rfl ⟨rfl, rfl⟩ (hknown (by rw [hw]; rfl)) rfl (.inl rfl) (.inl rfl)
    | cons r todo =>
      obtain ⟨k, request⟩ := r
      obtain ⟨internal, heq, -⟩ := hreached.request hw
      simp only [TimerQueue.work, TimerEvent.note, hw, heq]
      exact h.request hreached hw heq
  | clock =>
    simp only [TimerQueue.work, TimerEvent.note, hw]
    exact h.began hw
  | pass now =>
    simp only [TimerQueue.work, TimerEvent.note, hw]
    exact h.look hreached hw
  | extracted now k =>
    simp only [TimerQueue.work, TimerEvent.note, hw]
    split
    · next hcancelled => exact h.drop hw hcancelled
    · refine h.same rfl rfl ⟨rfl, rfl⟩ (hknown (by rw [hw]; rfl)) rfl (.inr ?_) (.inl rfl)
      rw [hw]
      rfl
  | firing now k =>
    simp only [TimerEvent.note, hw]
    exact h.work_firing hreached hw time timeout shutdownRequested

theorem Logged.makeTimer {dueTime frequency now : ℤ} {isOneshot : Bool} (h : s.Logged log)
    (hreached : s.Reached) (heq : s.makeTimer dueTime frequency isOneshot now = some s') :
    s'.Logged (.made s.size dueTime now :: log) := by
  have hknown : ∀ k, k ∈ s'.known ↔ k = s.size ∨ k ∈ s.known :=
    fun k => (hreached.perm_known_makeTimer heq).mem_iff.trans List.mem_cons
  unfold TimerQueue.makeTimer at heq
  split at heq
  · cases heq
  cases heq
  have hne : ∀ k < s.size, k ≠ s.size := fun k hk => Nat.ne_of_lt hk
  have hnow : (if s.idle then .lock else s.working).now = s.working.now := by
    rcases hreached.start with hw | ⟨hw, hw'⟩
    · rw [hw]
    · rw [hw, hw']
      rfl
  constructor
  case deadlines =>
    intro k hk
    by_cases hks : k = s.size
    · subst hks
      simp only [dueAfter, if_true, deadline, setState, Function.update_self, Option.map_some,
        makeDeadline]
    · have hlt : k < s.size := by
        simp only at hk
        omega
      simp only [dueAfter, if_neg (Ne.symm hks)]
      exact (h.deadlines k hlt).trans (congrArg some (deadline_setState_of_ne hks).symm)
  case onTime => exact h.onTime
  case pass =>
    intro t ht
    simp only [hnow] at ht
    exact h.pass t ht
  case passed =>
    intro hw t ht k hk
    simp only at hw
    split at hw
    · -- a worker that is started has no timers yet
      next hi =>
      have hnil := (hreached.absent (hreached.idle hi).1).1
      simp only [setState, hnil] at hk
      cases hk
    · have hlt := hreached.bounded k (hreached.mem_known hk)
      have hdeadline := h.passed hw t ht k hk
      rwa [← deadline_setState_of_ne (hne k hlt)] at hdeadline
  case kept =>
    intro ha k hk hc ho
    refine (hknown k).mpr ?_
    by_cases hks : k = s.size
    · exact .inl hks
    · have hlt : k < s.size := by
        simp only at hk
        omega
      simp only [setState, Function.update_of_ne hks] at hc ho
      exact .inr (h.kept ha k hlt hc ho)
  case oneshot =>
    intro k ho
    by_cases hks : k = s.size
    · subst hks
      have hz : fires s.size (.made s.size dueTime now :: log) = 0 := h.fresh _ (Nat.le_refl _)
      exact ⟨hz ▸ Nat.zero_le 1, fun _ => hz⟩
    · simp only [setState, Function.update_of_ne hks] at ho
      obtain ⟨hle, hz⟩ := h.oneshot k ho
      exact ⟨hle, fun hm => hz (((hknown k).mp hm).resolve_left hks)⟩
  case fresh => exact fun k hk => h.fresh k (Nat.le_of_succ_le hk)
  case cancelled =>
    intro k hk
    obtain ⟨hlt, hc⟩ := h.cancelled k (by simpa using hk)
    refine ⟨Nat.lt_succ_of_lt hlt, ?_⟩
    simpa only [setState, Function.update_of_ne (hne k hlt)] using hc
  case heeded => exact pairwise_heeds_cons (by simp) h.heeded
  case tested => exact fun k => by simpa [tests_cons, fires, setState] using h.tested k
  case called => exact fun k => by simpa [tests_cons, runs_cons, setState] using h.called k

theorem Logged.setState {k : ℕ} {t : TimerState} (h : s.Logged log)
    (hdeadline : t.deadline = s.deadline k) (ht : t.cancelled = (s.states k).cancelled)
    (ho : t.isOneshot = (s.states k).isOneshot) : (s.setState k t).Logged log := by
  have hflags := flags_setState ht ho
  have hdeadlines : ∀ j, (s.setState k t).deadline j = s.deadline j := by
    intro j
    by_cases hjk : j = k
    · subst hjk
      simpa only [deadline, TimerQueue.setState, Function.update_self] using hdeadline
    · exact deadline_setState_of_ne hjk
  exact { h with
    deadlines := fun j hj => hdeadlines j ▸ h.deadlines j hj
    passed := fun hw now hn j hj => hdeadlines j ▸ h.passed hw now hn j hj
    kept := fun ha j hj hc ho =>
      h.kept ha j hj ((hflags j).1 ▸ hc) fun ho' => ho ((hflags j).2.trans ho')
    oneshot := fun j ho => h.oneshot j ((hflags j).2 ▸ ho)
    cancelled := fun j hj => (hflags j).1 ▸ h.cancelled j hj }

theorem Logged.cancel (h : s.Logged log) (k : ℕ) :
    (s.cancel k).Logged (TimerEvent.note s log (.cancel k)) := by
  simp only [TimerQueue.cancel, TimerEvent.note]
  split
  · next hk =>
    have hstates : ∀ j, (s.setState k { s.states k with cancelled := true }).deadline j =
        s.deadline j ∧
      ((s.setState k { s.states k with cancelled := true }).states j).isOneshot =
        (s.states j).isOneshot ∧
      (((s.setState k { s.states k with cancelled := true }).states j).cancelled = true ↔
        j = k ∨ (s.states j).cancelled = true) := by
      intro j
      by_cases hjk : j = k
      · subst hjk
        simp [deadline, TimerQueue.setState]
      · simp [deadline, TimerQueue.setState, hjk]
    exact { h with
      deadlines := fun j hj => (hstates j).1 ▸ h.deadlines j hj
      passed := fun hw now hn j hj => (hstates j).1 ▸ h.passed hw now hn j hj
      kept := fun ha j hj hc ho => by
        refine h.kept ha j hj ?_ fun ho' => ho ((hstates j).2.1.trans ho')
        rw [Bool.eq_false_iff] at hc ⊢
        exact fun hc' => hc ((hstates j).2.2.mpr (.inr hc'))
      oneshot := fun j ho => h.oneshot j ((hstates j).2.1 ▸ ho)
      cancelled := fun j hj => by
        rcases List.mem_cons.mp hj with hj | hj
        · cases hj
          exact ⟨hk.1, (hstates k).2.2.mpr (.inl rfl)⟩
        · exact (h.cancelled j hj).imp id fun hc => (hstates j).2.2.mpr (.inr hc)
      heeded := pairwise_heeds_cons (by simp) h.heeded
      tested := fun j => by simpa [tests_cons, fires, TimerQueue.setState] using h.tested j
      called := fun j => by simpa [tests_cons, runs_cons, TimerQueue.setState] using h.called j }
  · exact h

theorem Logged.remove (h : s.Logged log) (k : ℕ) : (s.remove k).Logged log := by
  unfold TimerQueue.remove
  split
  · have hadded : added (s.working.todo ++ (s.requestQueue ++ [(k, .remove)])) =
        added s.pending := by
      rw [← List.append_assoc, added_append]
      exact List.append_nil _
    refine h.same rfl rfl ⟨rfl, rfl⟩ (congrArg (· ++ _) hadded) rfl (.inr rfl) ?_
    exact (Bool.eq_false_or_eq_true _).symm.imp id h.passed
  · exact h

theorem count_erase_add {k : ℕ} {l : List ℕ} (hk : k ∈ l) (j : ℕ) :
    (l.erase k).count j + (if k = j then 1 else 0) = l.count j := by
  rw [(List.perm_cons_erase hk).count_eq, List.count_cons]
  simp

theorem Logged.execute (h : s.Logged log) (k : ℕ) :
    (s.execute k).Logged (TimerEvent.note s log (.execute k)) := by
  simp only [TimerQueue.execute, TimerEvent.note]
  by_cases hk : k ∈ s.posted
  · have hposted := count_erase_add hk
    by_cases hc : (s.states k).cancelled = true
    · simp only [hk, hc, if_true, Bool.true_eq_false, and_false, if_false]
      refine { h with tested := fun j => ?_ }
      have htested := h.tested j
      have hj := hposted j
      simp only
      omega
    · have hc' : (s.states k).cancelled = false := Bool.eq_false_iff.mpr hc
      simp only [hk, hc', Bool.false_eq_true, if_true, and_self, if_false]
      exact { h with
        cancelled := fun j hj => h.cancelled j (by simpa using hj)
        heeded := by
          refine List.pairwise_cons.mpr ⟨fun e he j hj htested => ?_, h.heeded⟩
          cases htested
          subst hj
          exact hc (h.cancelled k he).2
        tested := fun j => by
          have htested := h.tested j
          have hj := hposted j
          simp only [tests_cons, fires, TimerEvent.tested.injEq]
          omega
        called := fun j => by
          have hcalled := h.called j
          simp only [tests_cons, runs_cons, List.count_cons, beq_iff_eq, reduceCtorEq, if_false,
            TimerEvent.tested.injEq]
          omega }
  · simp only [hk, if_false, false_and]
    exact h

theorem Logged.call (h : s.Logged log) (k : ℕ) :
    Logged { s with calling := s.calling.erase k } (TimerEvent.note s log (.call k)) := by
  simp only [TimerEvent.note]
  by_cases hk : k ∈ s.calling
  · rw [if_pos hk]
    have hcalling := count_erase_add hk
    exact { h with
      cancelled := fun j hj => h.cancelled j (by simpa using hj)
      heeded := pairwise_heeds_cons (by simp) h.heeded
      tested := fun j => by simpa [tests_cons, fires] using h.tested j
      called := fun j => by
        have hcalled := h.called j
        have hj := hcalling j
        simp only [tests_cons, runs_cons, reduceCtorEq, if_false, TimerEvent.ran.injEq]
        omega }
  · rw [if_neg hk, List.erase_of_not_mem hk]
    exact h

theorem Logged.shutdown (h : s.Logged log) : s.shutdown.Logged log := by
  have hpassed := (Bool.eq_false_or_eq_true s.working.waits).symm.imp id h.passed
  unfold TimerQueue.shutdown
  split
  · exact { h with }
  · split
    · have hsub : (added (s.working.todo ++ []) ++ s.internal.iteratorMapper).Sublist s.known :=
        (added_sublist (List.Sublist.append_left (List.nil_sublist _) _)).append_right _
      exact h.move rfl rfl ⟨rfl, rfl⟩ (fun k hk => hsub.subset hk)
        (fun ha => absurd ha.symm Bool.false_ne_true) (.inr rfl) hpassed
    · exact h.move rfl rfl ⟨rfl, rfl⟩ (fun _ hk => hk) (fun ha => absurd ha.symm Bool.false_ne_true)
        (.inr rfl) hpassed
  · exact { h with }
  · split
    · exact { h with }
    · exact h
  · exact h

theorem Logged.step (h : s.Logged log) (hreached : s.Reached) (op : TimerOp) :
    (timerQueue.step s op).1.Logged (TimerEvent.note s log op) := by
  cases op with
  | makeTimer dueTime frequency isOneshot now =>
    cases heq : s.makeTimer dueTime frequency isOneshot now with
    | none =>
      have ha : s.abort = true := by
        unfold TimerQueue.makeTimer at heq
        split at heq
        · assumption
        · cases heq
      simp only [timerQueue, heq, TimerEvent.note, if_pos ha]
      exact h
    | some s' =>
      have ha : ¬ s.abort = true := by
        intro ha
        rw [TimerQueue.makeTimer, if_pos ha] at heq
        cases heq
      simp only [timerQueue, heq, TimerEvent.note, if_neg ha]
      exact h.makeTimer hreached heq
  | notify =>
    simp only [timerQueue, TimerEvent.note]
    split
    · exact h
    · exact { h with }
  | cancel k => exact h.cancel k
  | remove k => exact h.remove k
  | setFrequency k frequency =>
    simp only [timerQueue, TimerEvent.note]
    split
    · exact h.setState rfl rfl rfl
    · exact h
  | work now timeout shutdownRequested => exact h.work hreached now timeout shutdownRequested
  | execute k => exact h.execute k
  | call k => exact h.call k
  | shutdown => exact h.shutdown

theorem Reached.present (h : s.Reached) (ha : s.abort = false) {k : ℕ} (hk : k ∈ s.known) :
    s.working ≠ .absent := by
  intro hw
  rcases (h.absent hw).2 with hi | ha'
  · rw [h.known_eq_nil hi] at hk
    cases hk
  · cases ha.symm.trans ha'

theorem Reached.nextDeadline_le (h : s.Reached) (hw : s.working = .waiting) {k : ℕ}
    (hk : k ∈ s.internal.timers) : s.nextDeadline ≤ s.deadline k := by
  cases htimers : s.internal.timers with
  | nil =>
    rw [htimers] at hk
    cases hk
  | cons j timers =>
    have hordered := h.ordered
    rw [htimers] at hordered hk
    rw [h.next (.inr hw) j (by rw [htimers]; rfl)]
    exact hordered.le_of_mem_cons hk

end TimerQueue

def runTimers (ops : List TimerOp) : TimerQueue × List TimerEvent :=
  ((timerQueue.noting TimerEvent.note).run (.new, []) ops).1

theorem runTimers_reached (ops : List TimerOp) :
    (runTimers ops).1.Reached ∧ (runTimers ops).1.Logged (runTimers ops).2 :=
  (timerQueue.noting TimerEvent.note).run_keeps (P := fun r => r.1.Reached ∧ r.1.Logged r.2)
    (fun _ op h => ⟨h.1.step op, h.2.step h.1 op⟩) ⟨.new, .new⟩ ops

/-- In every run of the queue, a timer that is neither cancelled nor done has a worker that has it
or will get it, until the queue is shut down. A worker that sleeps has a notification for every
request and for the shutdown, sleeps no longer than until the first deadline, and has left no
timer behind that was due when it began its last pass. A shutdown that is over has no worker. -/
theorem timerQueue_keeps (ops : List TimerOp) :
    let r := runTimers ops
    (r.1.abort = false → ∀ k < r.1.size, (r.1.states k).cancelled = false →
      ((r.1.states k).isOneshot = true → fires k r.2 = 0) →
        k ∈ r.1.known ∧ r.1.working ≠ .absent) ∧
      (r.1.working = .waiting →
        (r.1.requestQueue ≠ [] ∨ r.1.abort = true →
          r.1.notified = true ∨ r.1.abort = false ∧ 0 < r.1.notifying ∨ r.1.closing = .notify) ∧
        ∀ k ∈ r.1.internal.timers, r.1.nextDeadline ≤ r.1.deadline k ∧
          ∀ now, lastPass r.2 = some now → now < r.1.deadline k) ∧
      (r.1.closing = .done → r.1.working = .absent) := by
  intro r
  obtain ⟨hreached, hlogged⟩ := runTimers_reached ops
  refine ⟨fun ha k hk hc ho => ?_, fun hw => ⟨fun hr => hreached.wakes hw ?_, fun k hk => ?_⟩,
    hreached.done⟩
  · have hknown := hlogged.kept ha k hk hc ho
    exact ⟨hknown, hreached.present ha hknown⟩
  · simpa [TimerQueue.ready] using hr
  · refine ⟨hreached.nextDeadline_le hw hk, fun now hn => ?_⟩
    exact hlogged.passed (by rw [hw]; rfl) now hn k hk

end Plain.Engine
