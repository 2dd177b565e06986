import Plain.Engine.TimerQueue

/-! # Runs of the timer queue

Whatever the threads do, the worker meets no timer twice, keeps its timers in order and is not
left asleep in front of a request.
-/

namespace Plain.Engine

def added : List (ℕ × TimerRequest) → List ℕ
  | [] => []
  | (k, .add) :: requests => k :: added requests
  | (_, .remove) :: requests => added requests

def Working.todo : Working → List (ℕ × TimerRequest)
  | .requests todo => todo
  | _ => []

/-- The timer that the worker has taken out, in a pass that began `now`. -/
def Working.inHand : Working → List (ℤ × ℕ)
  | .extracted now k | .firing now k => [(now, k)]
  | _ => []

theorem added_append (l l' : List (ℕ × TimerRequest)) : added (l ++ l') = added l ++ added l' := by
  induction l with
  | nil => rfl
  | cons r l ih =>
    obtain ⟨k, _ | _⟩ := r
    · exact congrArg (k :: ·) ih
    · exact ih

theorem added_sublist {l l' : List (ℕ × TimerRequest)} (h : l.Sublist l') :
    (added l).Sublist (added l') := by
  induction h with
  | slnil => exact .slnil
  | cons r _ ih =>
    obtain ⟨k, _ | _⟩ := r
    · exact ih.cons k
    · exact ih
  | cons_cons r _ ih =>
    obtain ⟨k, _ | _⟩ := r
    · exact ih.cons_cons k
    · exact ih

namespace TimerQueue

def deadline (s : TimerQueue) (k : ℕ) : ℤ := (s.states k).deadline

def pending (s : TimerQueue) : List (ℕ × TimerRequest) := s.working.todo ++ s.requestQueue

def known (s : TimerQueue) : List ℕ := added s.pending ++ s.internal.iteratorMapper

structure Reached (s : TimerQueue) : Prop where
  sound : s.failed = false
  ordered : OrderedBy s.deadline s.internal.timers
  mapped : s.internal.iteratorMapper.Perm (s.working.inHand.map Prod.snd ++ s.internal.timers)
  nodup : s.known.Nodup
  bounded : ∀ k ∈ s.known, k < s.size
  removes : ∀ k, (k, .remove) ∈ s.pending → k < s.size ∧ (s.states k).cancelled = true
  removing : ∀ k ∈ s.removing, k < s.size ∧ (s.states k).cancelled = true
  due : ∀ now k, (now, k) ∈ s.working.inHand → s.deadline k ≤ now
  next : s.working = .lock ∨ s.working = .waiting →
    ∀ k ∈ s.internal.timers.head?, s.nextDeadline = s.deadline k
  idle : s.idle = true → s.working = .absent ∧ added s.requestQueue = []
  absent : s.working = .absent → s.internal.timers = [] ∧ (s.idle = true ∨ s.abort = true)
  wakes : s.working = .waiting → s.ready = true →
    s.notified = true ∨ s.abort = false ∧ 0 < s.notifying ∨ s.closing = .notify
  joinable : s.working ≠ .absent → s.joinable = true
  stops : s.abort = true ↔ s.closing = .notify ∨ s.closing = .join ∨ s.closing = .done
  done : s.closing = .done → s.working = .absent

variable {s : TimerQueue}

theorem Reached.new : new.Reached where
  sound := rfl
  ordered := orderedBy_nil
  mapped := .refl _
  nodup := .nil
  bounded := nofun
  removes := nofun
  removing := nofun
  due := nofun
  next := nofun
  idle _ := ⟨rfl, rfl⟩
  absent _ := ⟨rfl, .inl rfl⟩
  wakes := nofun
  joinable h := absurd rfl h
  stops := by simp [TimerQueue.new]
  done := nofun

section Facts

variable {k : ℕ}

theorem Reached.mem_known (h : s.Reached) (hk : k ∈ s.internal.timers) : k ∈ s.known :=
  List.mem_append_right _ (h.mapped.mem_iff.mpr (List.mem_append_right _ hk))

theorem Reached.mem_known_of_inHand (h : s.Reached) {now : ℤ}
    (hk : (now, k) ∈ s.working.inHand) : k ∈ s.known :=
  List.mem_append_right _
    (h.mapped.mem_iff.mpr (List.mem_append_left _ (List.mem_map_of_mem hk)))

theorem Reached.known_eq_nil (h : s.Reached) (hi : s.idle = true) : s.known = [] := by
  obtain ⟨hw, hadded⟩ := h.idle hi
  have hmapper : s.internal.iteratorMapper = [] := by
    have hperm := h.mapped
    rw [(h.absent hw).1, hw] at hperm
    exact hperm.eq_nil
  rw [known, pending, hw, hmapper]
  exact (List.append_nil _).trans hadded

theorem Reached.mapper_perm (h : s.Reached) (hhand : s.working.inHand = []) :
    s.internal.iteratorMapper.Perm s.internal.timers := by
  have hmapped := h.mapped
  rwa [hhand] at hmapped

end Facts

section MakeTimer

variable {s' : TimerQueue} {dueTime frequency now : ℤ} {isOneshot : Bool}

theorem Reached.start (h : s.Reached) :
    (if s.idle then .lock else s.working) = s.working ∨
      (if s.idle then .lock else s.working) = .lock ∧ s.working = .absent := by
  split
  · next hi => exact .inr ⟨rfl, (h.idle hi).1⟩
  · exact .inl rfl

theorem Reached.perm_known_makeTimer (h : s.Reached)
    (heq : s.makeTimer dueTime frequency isOneshot now = some s') :
    s'.known.Perm (s.size :: s.known) := by
  unfold TimerQueue.makeTimer at heq
  split at heq
  · cases heq
  cases heq
  have htodo : (if s.idle then .lock else s.working).todo = s.working.todo := by
    rcases h.start with hw | ⟨hw, hw'⟩
    · rw [hw]
    · rw [hw, hw']
      rfl
  simp only [known, pending, htodo, setState]
  rw [← List.append_assoc, added_append, List.append_assoc]
  exact List.perm_middle

theorem Reached.makeTimer (h : s.Reached)
    (heq : s.makeTimer dueTime frequency isOneshot now = some s') : s'.Reached := by
  have hknown := h.perm_known_makeTimer heq
  unfold TimerQueue.makeTimer at heq
  split at heq
  · cases heq
  next habort =>
  cases heq
  have hstates : ∀ k < s.size, ∀ t : TimerState,
      Function.update s.states s.size t k = s.states k :=
    fun k hk t => Function.update_of_ne (Nat.ne_of_lt hk) t s.states
  have hworking : (if s.idle then .lock else s.working).todo = s.working.todo ∧
      (if s.idle then .lock else s.working).inHand = s.working.inHand := by
    rcases h.start with hw | ⟨hw, hw'⟩
    · rw [hw]
      exact ⟨rfl, rfl⟩
    · rw [hw, hw']
      exact ⟨rfl, rfl⟩
  constructor
  · exact h.sound
  · refine h.ordered.congr fun k hk => ?_
    exact congrArg _ (hstates k (h.bounded k (h.mem_known hk)) _)
  · simp only [hworking.2]
    exact h.mapped
  · refine hknown.nodup_iff.mpr (List.nodup_cons.mpr ⟨fun hm => ?_, h.nodup⟩)
    exact Nat.lt_irrefl _ (h.bounded _ hm)
  · intro k hk
    rcases List.mem_cons.mp (hknown.mem_iff.mp hk) with rfl | hk
    · exact Nat.lt_succ_self _
    · exact Nat.lt_succ_of_lt (h.bounded k hk)
  · intro k hk
    have hold : (k, .remove) ∈ s.pending := by
      simpa [TimerQueue.pending, hworking.1] using hk
    obtain ⟨hlt, hcancelled⟩ := h.removes k hold
    refine ⟨Nat.lt_succ_of_lt hlt, ?_⟩
    simpa only [setState, hstates k hlt] using hcancelled
  · intro k hk
    obtain ⟨hlt, hcancelled⟩ := h.removing k hk
    refine ⟨Nat.lt_succ_of_lt hlt, ?_⟩
    simpa only [setState, hstates k hlt] using hcancelled
  · intro t k hk
    simp only [hworking.2] at hk
    have hlt := h.bounded k (h.mem_known_of_inHand hk)
    simpa only [deadline, setState, hstates k hlt] using h.due t k hk
  · intro hw k hk
    have hlt := h.bounded k (h.mem_known (List.mem_of_mem_head? hk))
    simp only [deadline, setState, hstates k hlt]
    split at hw
    · next hi =>
      simp only [setState, (h.absent (h.idle hi).1).1] at hk
      cases hk
    · exact h.next hw k hk
  · nofun
  · intro hw
    simp only at hw
    split at hw
    · cases hw
    · next hi =>
      rcases (h.absent hw).2 with hi' | ha
      · exact absurd hi' hi
      · exact absurd ha habort
  · exact fun _ _ => .inr (.inl ⟨Bool.eq_false_iff.mpr habort, Nat.succ_pos _⟩)
  · intro hw
    simp only at hw ⊢
    split at hw
    · next hi => rw [hi, Bool.or_true]
    · rw [h.joinable hw, Bool.true_or]
  · exact h.stops
  · exact fun hd => absurd (h.stops.mpr (.inr (.inr hd))) habort

end MakeTimer

section States

variable {j k : ℕ} {t : TimerState}

theorem setState_self : s.setState k (s.states k) = s := by
  simp [setState]

theorem deadline_setState_of_ne (hjk : j ≠ k) : (s.setState k t).deadline j = s.deadline j := by
  simp only [deadline, setState, Function.update_of_ne hjk]

theorem cancelled_setState (ht : (s.states k).cancelled = true → t.cancelled = true)
    (hj : (s.states j).cancelled = true) : ((s.setState k t).states j).cancelled = true := by
  by_cases hjk : j = k
  · subst hjk
    simpa only [setState, Function.update_self] using ht hj
  · simpa only [setState, Function.update_of_ne hjk] using hj

theorem Reached.setState (h : s.Reached) (hdeadline : t.deadline = s.deadline k)
    (ht : (s.states k).cancelled = true → t.cancelled = true) : (s.setState k t).Reached := by
  have hdeadlines : (s.setState k t).deadline = s.deadline := by
    ext j
    by_cases hjk : j = k
    · subst hjk
      simpa only [deadline, TimerQueue.setState, Function.update_self] using hdeadline
    · exact deadline_setState_of_ne hjk
  exact { h with
    ordered := hdeadlines ▸ h.ordered
    removes := fun j hj => (h.removes j hj).imp id (cancelled_setState ht)
    removing := fun j hj => (h.removing j hj).imp id (cancelled_setState ht)
    due := hdeadlines ▸ h.due
    next := hdeadlines ▸ h.next }

end States

theorem Reached.cancel (h : s.Reached) (k : ℕ) : (s.cancel k).Reached := by
  unfold TimerQueue.cancel
  split
  · next hk =>
    have hset : (s.setState k { s.states k with cancelled := true }).Reached :=
      h.setState rfl fun _ => rfl
    refine { hset with removing := fun j hj => ?_ }
    rcases List.mem_cons.mp hj with rfl | hj
    · exact ⟨hk.1, by simp only [TimerQueue.setState, Function.update_self]⟩
    · exact hset.removing j hj
  · exact h

theorem Reached.remove (h : s.Reached) (k : ℕ) : (s.remove k).Reached := by
  unfold TimerQueue.remove
  split
  · next hk =>
    have hadded : added (s.working.todo ++ (s.requestQueue ++ [(k, .remove)])) =
        added s.pending := by
      rw [← List.append_assoc, added_append]
      exact List.append_nil _
    have hknown : added (s.working.todo ++ (s.requestQueue ++ [(k, .remove)])) ++
        s.internal.iteratorMapper = s.known := congrArg (· ++ _) hadded
    refine { h with
      nodup := by simpa only [known, pending, hknown] using h.nodup
      bounded := by simpa only [known, pending, hknown] using h.bounded
      removes := fun j hj => ?_
      removing := fun j hj => h.removing j (List.mem_of_mem_erase hj)
      idle := fun hi => ?_
      wakes := fun hw _ => ?_ }
    · simp only [pending, ← List.append_assoc] at hj
      rcases List.mem_append.mp hj with hj | hj
      · exact h.removes j hj
      · cases List.mem_singleton.mp hj
        exact h.removing k hk
    · obtain ⟨hw, hnil⟩ := h.idle hi
      refine ⟨hw, ?_⟩
      rw [added_append, hnil]
      rfl
    · by_cases ha : s.abort = true
      · refine (h.wakes hw (by rw [ready, ha, Bool.or_true])).imp id fun hr => .inr ?_
        exact hr.resolve_left fun hf => absurd ha (Bool.eq_false_iff.mp hf.1)
      · exact .inr (.inl ⟨Bool.eq_false_iff.mpr ha, Nat.succ_pos _⟩)
  · exact h

theorem Reached.notify (h : s.Reached) (n : ℕ) : Reached { s.notify with notifying := n } :=
  { h with wakes := fun hw _ => .inl (if_pos hw) }

theorem Reached.shutdown (h : s.Reached) : s.shutdown.Reached := by
  cases hc : s.closing with
  | idle =>
    simp only [TimerQueue.shutdown, hc]
    have hstops := h.stops
    have hwakes := h.wakes
    simp only [hc, reduceCtorEq, or_self, or_false] at hstops hwakes
    exact { h with
      wakes := fun hw hr => (hwakes hw hr).imp id .inl
      stops := by simpa using hstops
      done := nofun }
  | lock =>
    simp only [TimerQueue.shutdown, hc]
    split
    · next hj =>
      have hknown : (added (s.working.todo ++ []) ++ s.internal.iteratorMapper).Sublist s.known :=
        (added_sublist (List.Sublist.append_left (List.nil_sublist _) _)).append_right _
      exact { h with
        nodup := h.nodup.sublist hknown
        bounded := fun k hk => h.bounded k (hknown.subset hk)
        removes := fun k hk => h.removes k
          ((List.Sublist.append_left (List.nil_sublist _) _).subset hk)
        idle := fun hi => ⟨(h.idle hi).1, rfl⟩
        absent := fun hw => ⟨(h.absent hw).1, .inr rfl⟩
        wakes := fun _ _ => .inr (.inr rfl)
        stops := by simp
        done := nofun }
    · next hj =>
      have hw : s.working = .absent := by
        by_contra hw
        exact hj (h.joinable hw)
      exact { h with
        absent := fun hw => ⟨(h.absent hw).1, .inr rfl⟩
        wakes := fun hw' => by cases hw.symm.trans hw'
        stops := by simp
        done := fun _ => hw }
  | notify =>
    simp only [TimerQueue.shutdown, hc]
    exact { h with
      wakes := fun hw _ => .inl (if_pos hw)
      stops := by simp [TimerQueue.notify, h.stops, hc]
      done := nofun }
  | join =>
    simp only [TimerQueue.shutdown, hc]
    split
    · next hw =>
      exact { h with
        wakes := fun hw' => by cases hw.symm.trans hw'
        joinable := fun hw' => absurd hw hw'
        stops := by simp [h.stops, hc]
        done := fun _ => hw }
    · exact h
  | done =>
    simp only [TimerQueue.shutdown, hc]
    exact h

section Work

theorem Reached.proceed (h : s.Reached) (hw : s.working = .lock ∨ s.working = .waiting) :
    s.proceed.Reached := by
  have htodo : s.working.todo = [] := by rcases hw with hw | hw <;> rw [hw] <;> rfl
  have hhand : s.working.inHand = [] := by rcases hw with hw | hw <;> rw [hw] <;> rfl
  have hpresent : s.working ≠ .absent := by rcases hw with hw | hw <;> rw [hw] <;> nofun
  have hidle : s.idle ≠ true := fun hi => hpresent (h.idle hi).1
  have hpending : s.pending = s.requestQueue := by rw [pending, htodo, List.nil_append]
  unfold TimerQueue.proceed
  split
  · next ha =>
    have hknown : (added s.requestQueue ++ []).Sublist s.known := by
      rw [known, hpending]
      exact List.Sublist.append_left (List.nil_sublist _) _
    exact { h with
      ordered := orderedBy_nil
      mapped := .refl _
      nodup := h.nodup.sublist hknown
      bounded := fun k hk => h.bounded k (hknown.subset hk)
      removes := fun k hk => h.removes k (hpending ▸ hk)
      due := nofun
      next := nofun
      idle := fun hi => absurd hi hidle
      absent := fun _ => ⟨rfl, .inr ha⟩
      wakes := nofun
      joinable := fun hw => absurd rfl hw
      done := fun _ => rfl }
  · next ha =>
    have hpending' : s.requestQueue ++ [] = s.pending := by rw [hpending, List.append_nil]
    have hknown : added (s.requestQueue ++ []) ++ s.internal.iteratorMapper = s.known := by
      rw [known, hpending']
    exact { h with
      mapped := h.mapper_perm hhand
      nodup := by simpa only [known, pending, Working.todo, hknown] using h.nodup
      bounded := by simpa only [known, pending, Working.todo, hknown] using h.bounded
      removes := fun k hk => h.removes k (hpending' ▸ hk)
      due := nofun
      next := nofun
      idle := fun hi => absurd hi hidle
      absent := nofun
      wakes := nofun
      joinable := fun _ => h.joinable hpresent
      done := fun hd => absurd (h.done hd) hpresent }

theorem Reached.wake (h : s.Reached) (hw : s.working = .waiting) (timeout : Bool) :
    (s.wake timeout).Reached := by
  unfold TimerQueue.wake
  split
  · exact h.proceed (.inr hw)
  next hr =>
  split
  · split
    · have hqueue : s.requestQueue = [] := by
        simp only [ready, Bool.or_eq_true, not_or] at hr
        simpa using hr.1
      have hpending : s.requestQueue = s.pending := by
        rw [pending, hw]
        rfl
      exact { h with
        ordered := orderedBy_nil
        mapped := .refl _
        nodup := by simp [known, pending, Working.todo, hqueue, added]
        bounded := by simp [known, pending, Working.todo, hqueue, added]
        removes := fun k hk => h.removes k (hpending ▸ hk)
        due := nofun
        next := nofun
        idle := fun _ => ⟨rfl, by rw [hqueue]; rfl⟩
        absent := fun _ => ⟨rfl, .inl rfl⟩
        wakes := nofun
        joinable := fun hw' => absurd rfl hw'
        done := fun _ => rfl }
    · exact h.proceed (.inr hw)
  · exact { h with wakes := fun _ hr' => absurd hr' hr }

theorem Reached.goOn {states : ℕ → TimerState} {internal : TimerQueueInternal} {nextDeadline : ℤ}
    {working : Working} {posted : List ℕ} (h : s.Reached) (hpresent : s.working ≠ .absent)
    (hwaiting : working ≠ .waiting) (habsent : working ≠ .absent)
    (hcancelled : ∀ k, (s.states k).cancelled = true → (states k).cancelled = true)
    (hordered : OrderedBy (fun k => (states k).deadline) internal.timers)
    (hmapped : internal.iteratorMapper.Perm (working.inHand.map Prod.snd ++ internal.timers))
    (htodo : working.todo.Sublist s.working.todo)
    (hknown : (added working.todo ++ internal.iteratorMapper).Subperm
      (added s.working.todo ++ s.internal.iteratorMapper))
    (hdue : ∀ now k, (now, k) ∈ working.inHand → (states k).deadline ≤ now)
    (hnext : working = .lock → ∀ k ∈ internal.timers.head?, nextDeadline = (states k).deadline) :
    Reached { s with
      states := states
      internal := internal
      nextDeadline := nextDeadline
      working := working
      posted := posted } := by
  have hsubperm : (added (working.todo ++ s.requestQueue) ++ internal.iteratorMapper).Subperm
      s.known := by
    have hswap : ∀ l l' : List ℕ, (l ++ added s.requestQueue ++ l').Perm
        (added s.requestQueue ++ (l ++ l')) := by
      intro l l'
      rw [← List.append_assoc]
      exact List.perm_append_comm.append_right l'
    rw [known, pending, added_append, added_append]
    exact (hswap _ _).subperm.trans
      (((List.subperm_append_left _).mpr hknown).trans (hswap _ _).symm.subperm)
  exact { h with
    ordered := hordered
    mapped := hmapped
    nodup := by
      obtain ⟨l, hl, hsub⟩ := hsubperm
      exact hl.nodup_iff.mp (h.nodup.sublist hsub)
    bounded := fun k hk => h.bounded k (hsubperm.subset hk)
    removes := fun k hk =>
      (h.removes k ((htodo.append_right _).subset hk)).imp id (hcancelled k)
    removing := fun k hk => (h.removing k hk).imp id (hcancelled k)
    due := hdue
    next := fun hw => hw.elim hnext fun hw => absurd hw hwaiting
    idle := fun hi => absurd (h.idle hi).1 hpresent
    absent := fun hw => absurd hw habsent
    wakes := fun hw => absurd hw hwaiting
    joinable := fun _ => h.joinable hpresent
    done := fun hd => absurd (h.done hd) hpresent }

theorem Reached.request {k : ℕ} {request : TimerRequest} {todo : List (ℕ × TimerRequest)}
    (h : s.Reached) (hw : s.working = .requests ((k, request) :: todo)) :
    ∃ internal, s.internal.request s.states k request = some internal ∧
      Reached { s with internal := internal, working := .requests todo } := by
  have hperm := h.mapper_perm (by rw [hw]; rfl)
  have hgo : ∀ internal : TimerQueueInternal,
      OrderedBy s.deadline internal.timers →
      internal.iteratorMapper.Perm internal.timers →
      (added todo ++ internal.iteratorMapper).Subperm
        (added ((k, request) :: todo) ++ s.internal.iteratorMapper) →
      Reached { s with internal := internal, working := .requests todo } := by
    intro internal hordered hmapped hknown
    refine h.goOn ?_ nofun nofun (fun _ => id) hordered hmapped ?_ ?_ nofun nofun
    · rw [hw]
      nofun
    · rw [hw]
      exact List.sublist_cons_self _ todo
    · rw [hw]
      exact hknown
  cases request with
  | add =>
    have hk : k ∉ s.internal.iteratorMapper := by
      have hnodup := h.nodup
      rw [known, pending, hw] at hnodup
      exact fun hm => (List.nodup_cons.mp hnodup).1 (List.mem_append_right _ hm)
    refine ⟨_, if_neg hk, hgo _ h.ordered.insertBy ?_ List.perm_middle.subperm⟩
    exact (hperm.cons k).trans perm_insertBy.symm
  | remove =>
    have hcancelled : (s.states k).cancelled = true := by
      refine (h.removes k ?_).2
      rw [pending, hw]
      exact List.mem_cons_self
    by_cases hk : k ∈ s.internal.iteratorMapper
    · refine ⟨_, (if_pos hk).trans (if_pos (hperm.mem_iff.mp hk)), ?_⟩
      exact hgo _ (h.ordered.sublist List.erase_sublist) (hperm.erase k)
        (List.erase_sublist.append_left _).subperm
    · refine ⟨_, (if_neg hk).trans (if_pos (by rw [hcancelled, Bool.or_true])), ?_⟩
      exact hgo _ h.ordered hperm (List.Subperm.refl _)

theorem Reached.look {now : ℤ} (h : s.Reached) (hw : s.working = .pass now) :
    (s.look now).Reached := by
  have hperm := h.mapper_perm (by rw [hw]; rfl)
  have hpresent : s.working ≠ .absent := by
    rw [hw]
    nofun
  have htodo : s.working.todo = [] := by
    rw [hw]
    rfl
  unfold TimerQueue.look
  split
  · next htimers =>
    have hmapper : s.internal.iteratorMapper = [] := by
      rw [htimers] at hperm
      exact hperm.eq_nil
    rw [if_pos hmapper]
    refine h.goOn hpresent nofun nofun (fun _ => id) h.ordered hperm (List.nil_sublist _) ?_ nofun
      fun _ k hk => ?_
    · rw [htodo]
      exact List.Subperm.refl _
    · rw [htimers] at hk
      cases hk
  · next k timers htimers =>
    rw [htimers] at hperm
    split
    · next hdue =>
      refine h.goOn hpresent nofun nofun (fun _ => id) ?_ hperm (List.nil_sublist _) ?_ ?_ nofun
      · exact h.ordered.sublist (htimers ▸ List.sublist_cons_self k timers)
      · rw [htodo]
        exact List.Subperm.refl _
      · intro t j hj
        cases List.mem_singleton.mp hj
        exact hdue
    · refine h.goOn hpresent nofun nofun (fun _ => id) h.ordered (htimers ▸ hperm)
        (List.nil_sublist _) ?_ nofun fun _ j hj => ?_
      · rw [htodo]
        exact List.Subperm.refl _
      · rw [htimers] at hj
        cases hj
        rfl

/-- The timer in hand is in the map, and nowhere else. -/
theorem Reached.taken {now : ℤ} {k : ℕ} (h : s.Reached)
    (hw : s.working = .extracted now k ∨ s.working = .firing now k) :
    s.internal.iteratorMapper.Perm (k :: s.internal.timers) ∧ k ∉ s.internal.timers := by
  have hperm : s.internal.iteratorMapper.Perm (k :: s.internal.timers) := by
    have hmapped := h.mapped
    rcases hw with hw | hw <;> rwa [hw] at hmapped
  refine ⟨hperm, ?_⟩
  have hnodup := hperm.nodup_iff.mp (h.nodup.sublist (List.sublist_append_right _ _))
  exact (List.nodup_cons.mp hnodup).1

theorem Reached.drop {now : ℤ} {k : ℕ} {t : TimerState} (h : s.Reached)
    (hw : s.working = .extracted now k ∨ s.working = .firing now k)
    (ht : t.cancelled = (s.states k).cancelled) (posted : List ℕ) :
    Reached (TimerQueue.drop { s.setState k t with posted := posted } now k) := by
  obtain ⟨hperm, hk⟩ := h.taken hw
  have hpresent : s.working ≠ .absent := by rcases hw with hw | hw <;> rw [hw] <;> nofun
  have htodo : s.working.todo = [] := by rcases hw with hw | hw <;> rw [hw] <;> rfl
  refine h.goOn hpresent nofun nofun (fun _ => cancelled_setState ht.trans) ?_ ?_
    (List.nil_sublist _) ?_ nofun nofun
  · exact h.ordered.congr fun j hj => deadline_setState_of_ne fun e => hk (e ▸ hj)
  · have herase := hperm.erase k
    rwa [List.erase_cons_head] at herase
  · rw [htodo]
    exact (List.erase_sublist.append_left _).subperm

theorem Reached.putBack {now : ℤ} {k : ℕ} {t : TimerState} (h : s.Reached)
    (hw : s.working = .firing now k) (ht : t.cancelled = (s.states k).cancelled)
    (posted : List ℕ) :
    Reached (TimerQueue.putBack { s.setState k t with posted := posted } now k) := by
  obtain ⟨hperm, hk⟩ := h.taken (.inr hw)
  have hpresent : s.working ≠ .absent := by
    rw [hw]
    nofun
  refine h.goOn hpresent nofun nofun (fun _ => cancelled_setState ht.trans) ?_
    (hperm.trans perm_insertBy.symm) (List.nil_sublist _) ?_ nofun nofun
  · refine OrderedBy.insertBy (h.ordered.congr fun j hj => ?_)
    exact deadline_setState_of_ne fun e => hk (e ▸ hj)
  · rw [hw]
    exact List.Subperm.refl _

theorem Reached.stay {working : Working} (h : s.Reached) (hpresent : s.working ≠ .absent)
    (hwaiting : working ≠ .waiting) (habsent : working ≠ .absent) (hlock : working ≠ .lock)
    (htodo : working.todo = s.working.todo) (hhand : working.inHand = s.working.inHand) :
    Reached { s with working := working } := by
  refine h.goOn hpresent hwaiting habsent (fun _ => id) h.ordered (hhand ▸ h.mapped)
    (htodo ▸ .refl _) ?_ (hhand ▸ h.due) fun hw => absurd hw hlock
  rw [htodo]

theorem Reached.wait (h : s.Reached) (hw : s.working = .lock) (hr : ¬ s.ready = true) :
    Reached { s with notified := false, working := .waiting } := by
  have hpresent : s.working ≠ .absent := by
    rw [hw]
    nofun
  exact { h with
    mapped := h.mapper_perm (by rw [hw]; rfl)
    nodup := by simpa only [known, pending, hw, Working.todo] using h.nodup
    bounded := by simpa only [known, pending, hw, Working.todo] using h.bounded
    removes := by simpa only [known, pending, hw, Working.todo] using h.removes
    due := nofun
    next := fun _ => h.next (.inl hw)
    idle := fun hi => absurd (h.idle hi).1 hpresent
    absent := nofun
    wakes := fun _ hr' => absurd hr' hr
    joinable := fun _ => h.joinable hpresent
    done := fun hd => absurd (h.done hd) hpresent }

theorem Reached.work (h : s.Reached) (time : ℤ) (timeout shutdownRequested : Bool) :
    (s.work time timeout shutdownRequested).Reached := by
  cases hw : s.working with
  | absent =>
    simp only [TimerQueue.work, hw]
    exact h
  | lock =>
    have hlength := (h.mapper_perm (by rw [hw]; rfl)).length_eq
    simp only [TimerQueue.work, hw]
    rw [if_neg (not_not_intro hlength)]
    split
    · exact h.proceed (.inl hw)
    · next hr => exact h.wait hw hr
  | waiting =>
    simp only [TimerQueue.work, hw]
    exact h.wake hw timeout
  | requests todo =>
    cases todo with
    | nil =>
      simp only [TimerQueue.work, hw]
      exact h.stay (by rw [hw]; nofun) nofun nofun nofun (by rw [hw]; rfl) (by rw [hw]; rfl)
    | cons r todo =>
      obtain ⟨k, request⟩ := r
      obtain ⟨internal, heq, hreached⟩ := h.request hw
      simp only [TimerQueue.work, hw, heq]
      exact hreached
  | clock =>
    simp only [TimerQueue.work, hw]
    exact h.stay (by rw [hw]; nofun) nofun nofun nofun (by rw [hw]; rfl) (by rw [hw]; rfl)
  | pass now =>
    simp only [TimerQueue.work, hw]
    exact h.look hw
  | extracted now k =>
    simp only [TimerQueue.work, hw]
    split
    · have hdrop := h.drop (.inl hw) rfl s.posted
      rwa [setState_self] at hdrop
    · exact h.stay (by rw [hw]; nofun) nofun nofun nofun (by rw [hw]; rfl) (by rw [hw]; rfl)
  | firing now k =>
    have hmem : k ∈ s.internal.iteratorMapper :=
      (h.taken (.inr hw)).1.mem_iff.mpr List.mem_cons_self
    simp only [TimerQueue.work, hw, if_pos hmem]
    split
    · exact h.drop (.inr hw) (by rfl) _
    · exact h.putBack hw (by rfl) _

end Work

theorem Reached.step (h : s.Reached) (op : TimerOp) : (timerQueue.step s op).1.Reached := by
  cases op with
  | makeTimer dueTime frequency isOneshot now =>
    simp only [timerQueue]
    split
    · exact h
    · next heq => exact h.makeTimer heq
  | notify =>
    simp only [timerQueue]
    split
    · exact h
    · exact h.notify _
  | cancel k => exact h.cancel k
  | remove k => exact h.remove k
  | setFrequency k frequency =>
    simp only [timerQueue]
    split
    · exact h.setState rfl id
    · exact h
  | work now timeout shutdownRequested => exact h.work now timeout shutdownRequested
  | execute k =>
    simp only [timerQueue, TimerQueue.execute]
    split
    · exact { h with }
    · exact h
  | call k => exact { h with }
  | shutdown => exact h.shutdown

end TimerQueue

end Plain.Engine
