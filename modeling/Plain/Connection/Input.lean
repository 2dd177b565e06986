import Plain.Connection.WorkFlag
import Plain.Foundation.Machine

/-! # Receiving in the background

Bytes arrive in the receive buffer of the socket, and the kernel queues an edge for them.
The poller takes the edge, raises the input flag and queues a task if the flag was clear.
A task pulls bytes and clears the flag when it finds the buffer empty. Finding it empty
and clearing the flag are two steps, between which the poller may rely on the flag.
-/

namespace Plain.Connection

inductive Poller where
  | waiting
  | exchange
  | enqueue
  deriving DecidableEq, Repr

/-- What a task does next. A task that is queued begins with its test of the flag. -/
inductive InputTask where
  | test
  | pull
  | command
  | avail
  | clear
  | idle
  | enqueue
  deriving DecidableEq, Repr

/-- What the kernel, the poller and the tasks share: the size of the receive buffer and the
edges queued for it, the flags, and how far the poller and the tasks are. -/
structure Reception where
  received : ℕ
  edges : ℕ
  workFlags : BitVec 8
  poller : Poller
  tasks : List InputTask
  deriving DecidableEq, Repr

namespace Reception

def new : Reception := ⟨0, 0, 0, .waiting, []⟩

def arrive (s : Reception) (n : ℕ) : Reception :=
  { s with received := s.received + (n + 1), edges := s.edges + 1 }

/-- The next step of the poller. The kernel may have merged some edges into the first. -/
def stepPoller (s : Reception) (merged : ℕ) : Reception :=
  match s.poller with
  | .waiting =>
      if s.edges = 0 then s
      else { s with edges := s.edges - (merged + 1), poller := .exchange }
  | .exchange =>
      let r := exchangeWorkFlag s.workFlags .input true
      { s with workFlags := r.2, poller := if r.1 then .waiting else .enqueue }
  | .enqueue => { s with tasks := s.tasks ++ [.test], poller := .waiting }

def stepTask (s : Reception) (k given : ℕ) : Reception :=
  match s.tasks[k]? with
  | some .test =>
      let next := if hasWorkFlag s.workFlags .input then .pull else .idle
      { s with tasks := s.tasks.set k next }
  | some .pull =>
      { s with received := s.received - given, tasks := s.tasks.set k .command }
  | some .command =>
      { s with
        workFlags := setWorkFlag s.workFlags .command true
        tasks := s.tasks.set k .avail }
  | some .avail =>
      -- what arrives behind this look is there when the flag is cleared
      { s with tasks := s.tasks.set k (if s.received = 0 then .clear else .idle) }
  | some .clear =>
      { s with
        workFlags := setWorkFlag s.workFlags .input false
        tasks := s.tasks.set k .idle }
  | some .idle =>
      if s.workFlags = 0 then { s with tasks := s.tasks.eraseIdx k }
      else { s with tasks := s.tasks.set k .enqueue }
  | some .enqueue => { s with tasks := s.tasks.set k .test }
  | none => s

/-- Data is left, and nobody is going to receive it. -/
def Lost (s : Reception) : Prop :=
  s.received ≠ 0 ∧ s.edges = 0 ∧ s.poller = .waiting ∧ s.tasks = []

instance (s : Reception) : Decidable s.Lost := inferInstanceAs (Decidable (_ ∧ _ ∧ _ ∧ _))

end Reception

/-- An arrival, a step of the poller or of a task, and what is done to the other flags. -/
inductive InputOp where
  | arrive (n : ℕ)
  | poller (merged : ℕ)
  | task (k given : ℕ)
  | flag (flag : WorkFlag) (other : flag ≠ .input) (enable : Bool)

def inputMachine : Machine Reception InputOp Unit where
  step s
    | .arrive n => (s.arrive n, ())
    | .poller merged => (s.stepPoller merged, ())
    | .task k given => (s.stepTask k given, ())
    | .flag flag _ enable => ({ s with workFlags := setWorkFlag s.workFlags flag enable }, ())

namespace Reception

/-- The last task ends only while the buffer is empty, or while the poller has an edge to
take or is at work. -/
def EndsSafely (s : Reception) : InputOp → Prop
  | .task k _ => s.tasks[k]? = some .idle → s.workFlags = 0 → s.tasks.length = 1 →
      s.received = 0 ∨ s.edges ≠ 0 ∨ s.poller ≠ .waiting
  | .arrive _ | .poller _ | .flag _ _ _ => True

/-- The flag is cleared only while the buffer is empty, or while the poller is going to
raise it again. -/
def ClearsSafely (s : Reception) : InputOp → Prop
  | .task k _ => s.tasks[k]? = some .clear →
      s.received = 0 ∨ s.edges ≠ 0 ∨ s.poller = .exchange
  | .arrive _ | .poller _ | .flag _ _ _ => True

/-- A raised flag has a task, or the poller is about to queue one. -/
def Woken (s : Reception) : Prop :=
  hasWorkFlag s.workFlags .input = true → s.tasks ≠ [] ∨ s.poller = .enqueue

/-- Data has a raised flag, an edge, or the poller about to raise the flag. -/
def Noticed (s : Reception) : Prop :=
  s.received ≠ 0 → hasWorkFlag s.workFlags .input = true ∨ s.edges ≠ 0 ∨ s.poller = .exchange

theorem not_lost_of_noticed {s : Reception} (hw : s.Woken) (hn : s.Noticed) : ¬ s.Lost := by
  rintro ⟨hdata, hedges, hpoller, htasks⟩
  rcases hn hdata with hflag | hedge | hexchange
  · rcases hw hflag with htask | henqueue
    · exact htask htasks
    · rw [hpoller] at henqueue
      cases henqueue
  · exact hedge hedges
  · rw [hpoller] at hexchange
    cases hexchange

section Steps

variable {s : Reception} {k given merged : ℕ}

theorem Woken.set {y : InputTask} (h : s.Woken)
    (hflag : hasWorkFlag s.workFlags .input = true) :
    s.tasks.set k y ≠ [] ∨ s.poller = .enqueue :=
  (h hflag).imp_left fun hne => by simpa using hne

theorem Woken.tasks_ne_nil (h : s.Woken) (hp : s.poller ≠ .enqueue)
    (hflag : hasWorkFlag s.workFlags .input = true) : s.tasks ≠ [] :=
  (h hflag).resolve_right hp

theorem Woken.stepPoller (h : s.Woken) : (s.stepPoller merged).Woken := by
  unfold Reception.stepPoller
  cases hp : s.poller with
  | waiting =>
    dsimp only
    split
    · exact h
    · exact fun hflag => Or.inl (h.tasks_ne_nil (hp ▸ Poller.noConfusion) hflag)
  | exchange =>
    cases hflag : hasWorkFlag s.workFlags .input with
    | true =>
      simp only [exchangeWorkFlag, hflag, if_true]
      exact fun hflag => Or.inl (h.tasks_ne_nil (hp ▸ Poller.noConfusion) hflag)
    | false =>
      simp only [exchangeWorkFlag, hflag, Bool.false_eq_true, if_false]
      exact fun _ => Or.inr rfl
  | enqueue =>
    exact fun _ => Or.inl (List.append_ne_nil_of_right_ne_nil _ (List.cons_ne_nil _ _))

theorem Woken.stepTask (h : s.Woken) : (s.stepTask k given).Woken := by
  unfold Reception.stepTask
  cases hk : s.tasks[k]? with
  | none => exact h
  | some task =>
    cases task with
    | test | pull | avail | enqueue => exact h.set
    | command =>
      intro hflag
      have hkeep := hasWorkFlag_set_ne s.workFlags .input
        (show WorkFlag.command ≠ .input by decide) true
      exact h.set (hkeep ▸ hflag)
    | clear =>
      intro hflag
      rw [hasWorkFlag_set] at hflag
      cases hflag
    | idle =>
      by_cases hflags : s.workFlags = 0
      · simp only [if_pos hflags]
        intro hflag
        rw [hflags] at hflag
        cases hflag
      · simp only [if_neg hflags]
        exact h.set

theorem Woken.step (op : InputOp) (h : s.Woken) : (inputMachine.step s op).1.Woken := by
  cases op with
  | arrive n => exact h
  | poller merged => exact h.stepPoller
  | task k given => exact h.stepTask
  | flag flag other enable =>
    intro hflag
    exact h (hasWorkFlag_set_ne s.workFlags .input other enable ▸ hflag)

theorem Noticed.stepPoller (h : s.Noticed) : (s.stepPoller merged).Noticed := by
  unfold Reception.stepPoller
  cases hp : s.poller with
  | waiting =>
    dsimp only
    split
    · exact h
    · exact fun _ => Or.inr (Or.inr rfl)
  | exchange =>
    intro _
    left
    cases hflag : hasWorkFlag s.workFlags .input with
    | true => simp only [exchangeWorkFlag, hflag, if_true]
    | false =>
      simp only [exchangeWorkFlag, hflag, Bool.false_eq_true, if_false]
      exact hasWorkFlag_set _ _ _
  | enqueue =>
    intro hdata
    refine (h hdata).imp_right (Or.imp_right fun hexchange => ?_)
    rw [hp] at hexchange
    cases hexchange

theorem Noticed.stepTask (h : s.Noticed) (hs : ClearsSafely s (.task k given)) :
    (s.stepTask k given).Noticed := by
  unfold Reception.stepTask
  cases hk : s.tasks[k]? with
  | none => exact h
  | some task =>
    cases task with
    | test | avail | enqueue => exact h
    | pull =>
      intro hdata
      apply h
      change s.received - given ≠ 0 at hdata
      omega
    | command =>
      intro hdata
      refine (h hdata).imp_left fun hflag => ?_
      exact (hasWorkFlag_set_ne s.workFlags .input (by decide) true).trans hflag
    | clear =>
      intro hdata
      exact Or.inr ((hs hk).resolve_left hdata)
    | idle =>
      dsimp only
      split <;> exact h

theorem Noticed.step (op : InputOp) (h : s.Noticed) (hs : ClearsSafely s op) :
    (inputMachine.step s op).1.Noticed := by
  cases op with
  | arrive n => exact fun _ => Or.inr (Or.inl (Nat.succ_ne_zero _))
  | poller merged => exact h.stepPoller
  | task k given => exact h.stepTask hs
  | flag flag other enable =>
    intro hdata
    refine (h hdata).imp_left fun hflag => ?_
    exact (hasWorkFlag_set_ne s.workFlags .input other enable).trans hflag

theorem not_lost_of_tasks (h : s.tasks ≠ []) : ¬ s.Lost := fun hl => h hl.2.2.2

theorem not_lost_of_poller (h : s.poller ≠ .waiting) : ¬ s.Lost := fun hl => h hl.2.2.1

theorem stepPoller_not_lost (hw : s.Woken) (h : ¬ s.Lost) : ¬ (s.stepPoller merged).Lost := by
  unfold stepPoller
  cases hp : s.poller with
  | waiting =>
    dsimp only
    split
    · exact h
    · exact not_lost_of_poller Poller.noConfusion
  | exchange =>
    cases hflag : hasWorkFlag s.workFlags .input with
    | true => exact not_lost_of_tasks (hw.tasks_ne_nil (hp ▸ Poller.noConfusion) hflag)
    | false =>
      apply not_lost_of_poller
      simp only [exchangeWorkFlag, hflag, Bool.false_eq_true, if_false]
      exact Poller.noConfusion
  | enqueue =>
    exact not_lost_of_tasks (List.append_ne_nil_of_right_ne_nil _ (List.cons_ne_nil _ _))

theorem set_ne_nil {task : InputTask} (hk : s.tasks[k]? = some task) (next : InputTask) :
    s.tasks.set k next ≠ [] := by
  intro hnil
  rw [List.set_eq_nil_iff] at hnil
  rw [hnil] at hk
  cases hk

theorem eraseIdx_eq_nil_iff {task : InputTask} (hk : s.tasks[k]? = some task) :
    s.tasks.eraseIdx k = [] ↔ s.tasks.length = 1 := by
  have hlt := (List.getElem?_eq_some_iff.mp hk).1
  rw [← List.length_eq_zero_iff, List.length_eraseIdx_of_lt hlt]
  omega

theorem stepTask_not_lost_iff (h : ¬ s.Lost) :
    ¬ (s.stepTask k given).Lost ↔ EndsSafely s (.task k given) := by
  unfold stepTask
  have hother (hne : s.tasks[k]? ≠ some .idle) : EndsSafely s (.task k given) :=
    fun h => absurd h hne
  cases hk : s.tasks[k]? with
  | none => exact iff_of_true h (hother (by rw [hk]; decide))
  | some task =>
    cases task with
    | test | pull | command | avail | clear | enqueue =>
      exact iff_of_true (not_lost_of_tasks (set_ne_nil hk _)) (hother (by rw [hk]; decide))
    | idle =>
      by_cases hflags : s.workFlags = 0
      · simp only [if_pos hflags]
        unfold Lost EndsSafely
        dsimp only
        rw [eraseIdx_eq_nil_iff hk]
        tauto
      · simp only [if_neg hflags]
        exact iff_of_true (not_lost_of_tasks (set_ne_nil hk _)) fun _ h0 => absurd h0 hflags

/-- A step loses data exactly when it ends the last task while data is left that the poller
does not know of. -/
theorem step_not_lost_iff (op : InputOp) (hw : s.Woken) (h : ¬ s.Lost) :
    ¬ (inputMachine.step s op).1.Lost ↔ EndsSafely s op := by
  cases op with
  | arrive n => exact iff_of_true (fun hl => Nat.succ_ne_zero _ hl.2.1) trivial
  | poller merged => exact iff_of_true (stepPoller_not_lost hw h) trivial
  | task k given => exact stepTask_not_lost_iff h
  | flag flag other enable => exact iff_of_true h trivial

theorem woken_new : new.Woken := fun h => absurd h (by decide)

theorem noticed_new : new.Noticed := fun h => absurd rfl h

theorem not_lost_new : ¬ new.Lost := not_lost_of_noticed woken_new noticed_new

end Steps

theorem Noticed.endsSafely {s : Reception} (h : s.Noticed) (op : InputOp) : EndsSafely s op := by
  cases op with
  | task k given =>
    intro _ hflags _
    by_cases hdata : s.received = 0
    · exact Or.inl hdata
    · right
      rcases h hdata with hflag | hedge | hexchange
      · rw [hflags] at hflag
        cases hflag
      · exact Or.inl hedge
      · exact Or.inr (hexchange ▸ Poller.noConfusion)
  | arrive | poller | flag => exact trivial

section Unnoticed

def Known (s : Reception) : Prop := s.workFlags &&& 0xf0 = 0

/-- Data is left that neither the flag nor the poller tells of, and no task is about to pull
bytes. -/
structure Unnoticed (s : Reception) : Prop where
  data : s.received ≠ 0
  edges : s.edges = 0
  poller : s.poller = .waiting
  flag : hasWorkFlag s.workFlags .input = false
  known : s.Known
  pull : .pull ∉ s.tasks

variable {s : Reception}

theorem known_zero : (0 : BitVec 8) &&& 0xf0 = 0 := by decide

theorem known_setWorkFlag {flags : BitVec 8} (h : flags &&& 0xf0 = 0) (flag : WorkFlag)
    (enable : Bool) : setWorkFlag flags flag enable &&& 0xf0 = 0 := by
  cases flag <;> cases enable <;> revert flags <;> decide

theorem Known.exchange (h : s.Known) (flag : WorkFlag) (enable : Bool) :
    (exchangeWorkFlag s.workFlags flag enable).2 &&& 0xf0 = 0 := by
  unfold exchangeWorkFlag
  dsimp only
  split
  · exact h
  · exact known_setWorkFlag h flag enable

theorem Known.step (h : s.Known) (op : InputOp) : (inputMachine.step s op).1.Known := by
  cases op with
  | arrive n => exact h
  | poller merged =>
    simp only [inputMachine, stepPoller]
    cases s.poller with
    | waiting =>
      dsimp only
      split <;> exact h
    | exchange => exact h.exchange .input true
    | enqueue => exact h
  | task k given =>
    simp only [inputMachine, stepTask]
    cases s.tasks[k]? with
    | none => exact h
    | some task =>
      cases task with
      | test | pull | avail | enqueue => exact h
      | command => exact known_setWorkFlag h .command true
      | clear => exact known_setWorkFlag h .input false
      | idle =>
        dsimp only
        split <;> exact h
  | flag flag _ enable => exact known_setWorkFlag h flag enable

/-- The steps that clear the flags of a connection without input and end its first task. -/
def endOps : List InputOp :=
  [.flag .output (by decide) false, .flag .except (by decide) false,
    .flag .command (by decide) false, .task 0 0]

theorem clear_others {flags : BitVec 8} (h : flags &&& 0xf0 = 0)
    (hflag : hasWorkFlag flags .input = false) :
    setWorkFlag (setWorkFlag (setWorkFlag flags .output false) .except false) .command false =
      0 := by
  revert flags
  decide

theorem Unnoticed.end_idle (h : s.Unnoticed) {tasks : List InputTask}
    (ht : s.tasks = .idle :: tasks) :
    (inputMachine.run s endOps).1 = { s with workFlags := 0, tasks := tasks } := by
  have hclear := clear_others h.known h.flag
  simp [endOps, inputMachine, stepTask, hclear, ht]

theorem Unnoticed.to_idle (h : s.Unnoticed) {task : InputTask} {tasks : List InputTask}
    (ht : s.tasks = task :: tasks) :
    ∃ n flags, (inputMachine.run s (List.replicate n (.task 0 0))).1 =
        { s with workFlags := flags, tasks := .idle :: tasks } ∧
      hasWorkFlag flags .input = false ∧ flags &&& 0xf0 = 0 := by
  have hflag := h.flag
  have hcommand : hasWorkFlag (setWorkFlag s.workFlags .command true) .input = false :=
    (hasWorkFlag_set_ne s.workFlags .input (by decide) true).trans hflag
  cases task with
  | pull => exact absurd (ht ▸ List.mem_cons_self) h.pull
  | test =>
    refine ⟨1, s.workFlags, ?_, hflag, h.known⟩
    simp [inputMachine, stepTask, ht, hflag]
  | command =>
    refine ⟨2, _, ?_, hcommand, known_setWorkFlag h.known .command true⟩
    simp [List.replicate, inputMachine, stepTask, ht, h.data]
  | avail =>
    refine ⟨1, s.workFlags, ?_, hflag, h.known⟩
    simp [inputMachine, stepTask, ht, h.data]
  | clear =>
    refine ⟨1, _, ?_, hasWorkFlag_set s.workFlags .input false,
      known_setWorkFlag h.known .input false⟩
    simp [inputMachine, stepTask, ht]
  | idle => exact ⟨0, s.workFlags, by simp [← ht], hflag, h.known⟩
  | enqueue =>
    refine ⟨2, s.workFlags, ?_, hflag, h.known⟩
    simp [List.replicate, inputMachine, stepTask, ht, hflag]

/-- Data that goes unnoticed is lost when the tasks end before more arrives. -/
theorem Unnoticed.lost (h : s.Unnoticed) :
    ∃ more, (∀ n, .arrive n ∉ more) ∧ (inputMachine.run s more).1.Lost := by
  -- the tasks end one after the other
  induction ht : s.tasks generalizing s with
  | nil => exact ⟨[], by simp, h.data, h.edges, h.poller, ht⟩
  | cons task tasks ih =>
    obtain ⟨n, flags, hrun, hflag, hknown⟩ := h.to_idle ht
    have hpull : .pull ∉ tasks := fun hmem => h.pull (ht ▸ List.mem_cons_of_mem _ hmem)
    have hidle : Unnoticed { s with workFlags := flags, tasks := .idle :: tasks } :=
      ⟨h.data, h.edges, h.poller, hflag, hknown, by simpa using hpull⟩
    have hend : Unnoticed { s with workFlags := 0, tasks := tasks } :=
      ⟨h.data, h.edges, h.poller, show hasWorkFlag 0 .input = false by decide, known_zero, hpull⟩
    obtain ⟨more, hmore, hlost⟩ := ih hend rfl
    refine ⟨List.replicate n (.task 0 0) ++ (endOps ++ more), ?_, ?_⟩
    · intro m
      simp [endOps, hmore m]
    · rw [Machine.run_append, hrun, Machine.run_append, hidle.end_idle rfl]
      exact hlost

/-- A clear that is not safe leaves data unnoticed, once the poller has queued the task it is
about to queue. -/
theorem unnoticed_of_not_clearsSafely (hknown : s.Known) {k given : ℕ}
    (hclear : ¬ ClearsSafely s (.task k given)) (hpull : .pull ∉ s.tasks) :
    ∃ more, (∀ n, .arrive n ∉ more) ∧
      (inputMachine.run s (.task k given :: more)).1.Unnoticed := by
  simp only [ClearsSafely, Classical.not_imp, not_or, not_not] at hclear
  obtain ⟨hk, hdata, hedges, hpoller⟩ := hclear
  have hset : .pull ∉ s.tasks.set k .idle := fun hmem =>
    (List.mem_or_eq_of_mem_set hmem).elim hpull InputTask.noConfusion
  have hflag := hasWorkFlag_set s.workFlags .input false
  have hbits := known_setWorkFlag hknown .input false
  cases hp : s.poller with
  | exchange => exact absurd hp hpoller
  | waiting =>
    refine ⟨[], by simp, ?_⟩
    simp only [Machine.run_cons, Machine.run_nil, inputMachine, stepTask, hk]
    exact ⟨hdata, hedges, hp, hflag, hbits, hset⟩
  | enqueue =>
    refine ⟨[.poller 0], by simp, ?_⟩
    simp only [Machine.run_cons, Machine.run_nil, inputMachine, stepTask, hk, stepPoller, hp]
    exact ⟨hdata, hedges, rfl, hflag, hbits, by simpa using hset⟩

end Unnoticed

/-- An interleaving in which the flag is cleared safely never loses data, and behind a clear
that is not safe, with no task about to pull bytes, the tasks may end with data lost before
more arrives. An interleaving as it is loses no data exactly when every end of a last task is
safe. -/
theorem input_not_lost_iff (ops : List InputOp) :
    (inputMachine.Along ClearsSafely new ops →
      ∀ n, ¬ (inputMachine.run new (ops.take n)).1.Lost) ∧
    (∀ k given, ¬ ClearsSafely (inputMachine.run new ops).1 (.task k given) →
      .pull ∉ (inputMachine.run new ops).1.tasks →
      ∃ more, (∀ n, .arrive n ∉ more) ∧
        (inputMachine.run new (ops ++ .task k given :: more)).1.Lost) ∧
    ((∀ n, ¬ (inputMachine.run new (ops.take n)).1.Lost) ↔
      inputMachine.Along EndsSafely new ops) := by
  have hiff : (∀ n, ¬ (inputMachine.run new (ops.take n)).1.Lost) ↔
      inputMachine.Along EndsSafely new ops :=
    inputMachine.run_always_iff_of_invariant (P := fun s => ¬ s.Lost)
      (fun _ op hw _ => Woken.step op hw) (fun _ op hw _ h => step_not_lost_iff op hw h)
      woken_new not_lost_new (inputMachine.along_of_forall fun _ _ => trivial)
  refine ⟨fun hclear => hiff.mpr ?_, ?_, hiff⟩
  · exact inputMachine.along_of_invariant (fun _ op hn hs => Noticed.step op hn hs)
      (fun _ op hn _ => hn.endsSafely op) noticed_new hclear
  · intro k given hclear hpull
    have hknown := inputMachine.run_keeps (P := Known) (fun _ op h => h.step op) (s := new)
      known_zero ops
    obtain ⟨more, hmore, hun⟩ := unnoticed_of_not_clearsSafely hknown hclear hpull
    obtain ⟨last, hlast, hlost⟩ := hun.lost
    refine ⟨more ++ last, fun n => by simp [hmore n, hlast n], ?_⟩
    rw [Machine.run_append, ← List.cons_append, Machine.run_append]
    exact hlost

/-- Bytes that arrive after the buffer was found empty are lost if the poller has found the
flag raised before it is cleared. -/
theorem input_lost_between :
    (inputMachine.run new [.arrive 0, .poller 0, .poller 0, .poller 0,
      .task 0 0, .task 0 1, .task 0 0, .task 0 0, .arrive 0, .poller 0, .poller 0,
      .task 0 0, .flag .command (by decide) false, .task 0 0]).1.Lost := by
  decide

end Reception

end Plain.Connection
