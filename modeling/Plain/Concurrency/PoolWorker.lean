import Plain.Foundation.Machine
import Mathlib.Algebra.GroupWithZero.Nat
import Mathlib.Data.List.Basic
import Mathlib.Data.List.ReduceOption

/-! # A worker of the thread pool

A worker has a public queue, which others fill under its lock, and a private one, which it works
off from the back. It sleeps on a semaphore until a deadline; behind the deadline its thread ends
and the worker is marked as idle, so that the next to enqueue starts another thread. Before each
task the worker gives tasks away to workers that it finds idle. What was moved from does nothing
when it is run. Assertions are taken as absent.
-/

namespace Plain.Concurrency

variable {α ι : Type*}

/-- The loop that hands out a list in ranges, one to each party: `donation` elements, and one more
as long as there are `extra` ones. -/
def shares (donation : ℕ) : ℕ → ℕ → ℕ → List ι → List (ι × ℕ × ℕ)
  | _, _, _, [] => []
  | 0, start, stop, i :: is => (i, start, stop) :: shares donation 0 stop (stop + donation) is
  | extra + 1, start, stop, i :: is =>
      (i, start, stop + 1) :: shares donation extra (stop + 1) (stop + 1 + donation) is

/-- The ranges of so many tasks for the given parties out of `total` workers. -/
def sharesOf (count total : ℕ) (is : List ι) : List (ι × ℕ × ℕ) :=
  let donation := count / total
  shares donation (count - donation * total) 0 donation is

def cut (tasks : List α) (start stop : ℕ) : List α := (tasks.drop start).take (stop - start)

def blank (tasks : List (Option α)) (start stop : ℕ) : List (Option α) :=
  tasks.take start ++ List.replicate (cut tasks start stop).length none ++ tasks.drop stop

/-- What the thread of a worker does next. It donates tasks from `start` on, so many to each of the
workers in `todo`. A thread that has `exited` is over, or was never
started. -/
inductive PoolWorking (α : Type*) where
  | exited
  | drain
  | waiting
  | woken
  | relock
  | expired
  | take
  | donate (start : ℕ) (todo : List (ℕ × ℕ))
  | test
  | running (task : Option α)
  | leave
  deriving DecidableEq, Repr

inductive PoolStopping where
  | idle
  | lock
  | found
  | release
  | join
  | clear
  | done
  deriving DecidableEq, Repr

structure PoolWorker (α : Type*) where
  publicQueue : List (Option α)
  privateQueue : List (Option α)
  idleList : List ℕ
  semaphore : ℕ
  releasing : ℕ
  taskFound : Bool
  idle : Bool
  working : PoolWorking α
  stopping : PoolStopping
  deriving DecidableEq

namespace PoolWorker

def new : PoolWorker α := ⟨[], [], [], 0, 0, false, true, .exited, .idle⟩

def atomicAbort (w : PoolWorker α) : Bool := w.stopping ≠ .idle

def abort (w : PoolWorker α) : Bool :=
  match w.stopping with
  | .idle | .lock => false
  | .found | .release | .join | .clear | .done => true

/-- What `enqueue_foreign` does under the lock, and whether the semaphore is to be released
behind it. A stopped worker throws, an idle one gets a new thread. -/
def enqueueForeign (w : PoolWorker α) (tasks : List (Option α)) : Option (PoolWorker α × Bool) :=
  if w.abort then none
  else if w.idle then
    some ({ w with
      publicQueue := w.publicQueue ++ tasks
      taskFound := true
      idle := false
      working := .drain }, false)
  else
    some ({ w with publicQueue := w.publicQueue ++ tasks, taskFound := true },
      w.publicQueue.isEmpty)

/-- The thread that has enqueued goes on to release the semaphore if it is to. -/
def owing (w : PoolWorker α) (release : Bool) : PoolWorker α :=
  { w with releasing := w.releasing + if release then 1 else 0 }

@[simp] theorem working_owing (w : PoolWorker α) (release : Bool) :
    (w.owing release).working = w.working := rfl

def release (w : PoolWorker α) : PoolWorker α :=
  match w.releasing with
  | 0 => w
  | n + 1 => { w with releasing := n, semaphore := w.semaphore + 1 }

/-- The thread ends, with the worker marked as idle under the lock. -/
def exit (w : PoolWorker α) : PoolWorker α := { w with idle := true, working := .exited }

@[simp] theorem working_exit (w : PoolWorker α) : w.exit.working = .exited := rfl

def swap (w : PoolWorker α) : PoolWorker α :=
  { w with
    privateQueue := w.publicQueue
    publicQueue := w.privateQueue
    taskFound := false
    working := .take }

@[simp] theorem working_swap (w : PoolWorker α) : w.swap.working = .take := rfl

/-- The first half of `balance_work`: who gets how many tasks, of `size` workers of which
`find_idle_workers` has `found` some. They come behind those of a donation that has thrown. -/
def balanceWork (size : ℕ) (w : PoolWorker α) (found : List ℕ) : PoolWorker α :=
  let count := w.privateQueue.length
  let most := min (size - 1) (count - 1)
  if most = 0 then { w with working := .test }
  else
    let idle := w.idleList ++ found.take most
    { w with
      idleList := idle
      working := .donate 0 ((sharesOf count (idle.length + 1) idle).map fun r =>
        (r.1, r.2.2 - r.2.1)) }

/-- The next step of the thread of a worker that gives nothing away. A wait may end at its
deadline. -/
def stepWorker (size : ℕ) (w : PoolWorker α) (expired : Bool) (found : List ℕ) : PoolWorker α :=
  match w.working with
  | .exited | .donate _ (_ :: _) => w
  | .drain =>
      if w.abort then { w.exit with taskFound := false }
      else if w.publicQueue.isEmpty then { w with working := .waiting }
      else w.swap
  | .waiting =>
      match w.semaphore with
      | 0 => if expired then { w with working := .expired } else w
      | n + 1 => { w with semaphore := n, working := .woken }
  | .woken => { w with working := if w.taskFound then .relock else .waiting }
  | .relock =>
      if w.abort then w.exit
      else if w.publicQueue.isEmpty then { w with working := .waiting }
      else w.swap
  | .expired =>
      -- what has come in since the deadline is not looked at
      w.exit
  | .take =>
      if w.privateQueue.isEmpty then { w with working := .drain } else w.balanceWork size found
  | .donate start [] =>
      { w with privateQueue := w.privateQueue.drop start, idleList := [], working := .test }
  | .test =>
      if w.atomicAbort then { w with working := .leave }
      else
        match w.privateQueue.getLast? with
        | none => { w with working := .leave }
        | some task => { w with privateQueue := w.privateQueue.dropLast, working := .running task }
  | .running _ => { w with working := .take }
  | .leave => w.exit

def enqueueLocal (w : PoolWorker α) (tasks : List α) : Option (PoolWorker α) :=
  match w.working with
  | .running _ =>
      if w.atomicAbort then none
      else some { w with privateQueue := w.privateQueue ++ tasks.map some }
  | _ => none

/-- The running task lets an exception out, which `work_loop` catches. -/
def thrown (w : PoolWorker α) : PoolWorker α :=
  match w.working with
  | .running _ => { w with working := .leave }
  | _ => w

def stepShutdown (w : PoolWorker α) : PoolWorker α :=
  match w.stopping with
  | .idle => { w with stopping := .lock }
  | .lock => { w with stopping := .found }
  | .found => { w with taskFound := true, stopping := .release }
  | .release => { w with semaphore := w.semaphore + 1, stopping := .join }
  | .join =>
      match w.working with
      | .exited => { w with stopping := .clear }
      | _ => w
  | .clear => { w with publicQueue := [], privateQueue := [], stopping := .done }
  | .done => w

end PoolWorker

section Shares

variable {donation extra start : ℕ} {is : List ι}

theorem sum_shares :
    ((shares donation extra start (start + donation) is).map fun r => r.2.2 - r.2.1).sum =
      is.length * donation + min extra is.length := by
  induction is generalizing extra start with
  | nil => simp [shares]
  | cons i is ih =>
    cases extra with
    | zero =>
      simp only [shares, List.map_cons, List.sum_cons, ih, List.length_cons, Nat.succ_mul]
      omega
    | succ extra =>
      simp only [shares, List.map_cons, List.sum_cons, ih, List.length_cons, Nat.succ_mul]
      omega

theorem sum_sharesOf_lt {count : ℕ} (h : is.length < count) :
    ((sharesOf count (is.length + 1) is).map fun r => r.2.2 - r.2.1).sum < count := by
  have hpos : 0 < count / (is.length + 1) := Nat.div_pos (by omega) (by omega)
  have hmul : count / (is.length + 1) * (is.length + 1) ≤ count := Nat.div_mul_le_self _ _
  rw [Nat.mul_add, Nat.mul_one] at hmul
  generalize hd : count / (is.length + 1) = donation at hpos hmul
  have hsum : ((shares donation (count - donation * (is.length + 1)) 0 (0 + donation) is).map
      fun r => r.2.2 - r.2.1).sum = is.length * donation + min _ is.length := sum_shares
  rw [Nat.zero_add] at hsum
  simp only [sharesOf, hd]
  rw [hsum, Nat.mul_add, Nat.mul_one, Nat.mul_comm is.length]
  omega

theorem mem_of_mem_shares {stop : ℕ} {r : ι × ℕ × ℕ}
    (h : r ∈ shares donation extra start stop is) : r.1 ∈ is := by
  induction is generalizing extra start stop with
  | nil => simp [shares] at h
  | cons i is ih =>
    cases extra <;>
    · simp only [shares, List.mem_cons] at h
      rcases h with rfl | h
      · exact List.mem_cons_self
      · exact List.mem_cons_of_mem i (ih h)

theorem cut_append (tasks : List α) {start stop : ℕ} (h : start ≤ stop) (n : ℕ) :
    cut tasks start stop ++ (tasks.drop stop).take n =
      (tasks.drop start).take (stop - start + n) := by
  rw [cut, List.take_add, List.drop_drop]
  congr 3
  omega

theorem flatMap_shares (tasks : List α) :
    ((shares donation extra start (start + donation) is).flatMap fun r => cut tasks r.2.1 r.2.2) =
      (tasks.drop start).take (is.length * donation + min extra is.length) := by
  induction is generalizing extra start with
  | nil => simp [shares]
  | cons i is ih =>
    cases extra with
    | zero =>
      rw [shares, List.flatMap_cons, ih, cut_append tasks (Nat.le_add_right start donation),
        List.length_cons, Nat.succ_mul]
      congr 1
      omega
    | succ extra =>
      have hle : start ≤ start + donation + 1 := Nat.le_add_right start (donation + 1)
      rw [shares, List.flatMap_cons, ih, cut_append tasks hle, List.length_cons, Nat.succ_mul]
      congr 1
      omega

theorem map_fst_shares {stop : ℕ} : (shares donation extra start stop is).map Prod.fst = is := by
  induction is generalizing extra start stop with
  | nil => simp [shares]
  | cons i is ih => cases extra <;> simp [shares, ih]

theorem bounds_of_mem_shares {i : ι} {first last : ℕ}
    (h : (i, first, last) ∈ shares donation extra start (start + donation) is) :
    (last = first + donation ∨ last = first + donation + 1) ∧
      last ≤ start + is.length * donation + min extra is.length := by
  induction is generalizing extra start with
  | nil => simp [shares] at h
  | cons j is ih =>
    rw [List.length_cons, Nat.succ_mul]
    cases extra with
    | zero =>
      rw [shares, List.mem_cons, Prod.mk.injEq, Prod.mk.injEq] at h
      rcases h with ⟨rfl, rfl, rfl⟩ | h
      · exact ⟨.inl rfl, by omega⟩
      · obtain ⟨hsize, hle⟩ := ih h
        exact ⟨hsize, by omega⟩
    | succ extra =>
      rw [shares, List.mem_cons, Prod.mk.injEq, Prod.mk.injEq] at h
      rcases h with ⟨rfl, rfl, rfl⟩ | h
      · exact ⟨.inr rfl, by omega⟩
      · obtain ⟨hsize, hle⟩ := ih h
        exact ⟨hsize, by omega⟩

section Blank

variable {q : List (Option α)} {first last : ℕ}

theorem take_append_cut (q : List (Option α)) (h : first ≤ last) :
    q.take first ++ cut q first last ++ q.drop last = q := by
  rw [List.append_assoc, cut]
  conv_rhs => rw [← List.take_append_drop first q, ← List.take_append_drop (last - first)
    (q.drop first), List.drop_drop, Nat.add_sub_cancel' h]

theorem length_blank (h : first ≤ last) : (blank q first last).length = q.length := by
  have hlength := congrArg List.length (take_append_cut q h)
  simpa [blank] using hlength

theorem reduceOption_blank_perm (h : first ≤ last) :
    q.reduceOption.Perm ((blank q first last).reduceOption ++ (cut q first last).reduceOption) := by
  have hq := congrArg List.reduceOption (take_append_cut q h)
  simp only [List.reduceOption_append] at hq
  rw [← hq, blank, List.reduceOption_append, List.reduceOption_append,
    List.reduceOption_replicate_none, List.append_nil, List.append_assoc, List.append_assoc]
  exact List.perm_append_comm.append_left _

theorem reduceOption_take_blank (h : first ≤ last) (hfirst : (q.take first).reduceOption = []) :
    ((blank q first last).take last).reduceOption = [] := by
  have hnone : (q.take first ++
      List.replicate (cut q first last).length none).reduceOption = [] := by
    rw [List.reduceOption_append, hfirst, List.reduceOption_replicate_none, List.append_nil]
  have hlength : (q.take first ++ List.replicate (cut q first last).length none).length =
      min last q.length := by
    simp only [List.length_append, List.length_take, List.length_replicate, cut, List.length_drop]
    omega
  unfold blank
  rcases Nat.le_total last q.length with hle | hle
  · rwa [List.take_left' (by omega)]
  · rwa [List.drop_eq_nil_of_le hle, List.append_nil, List.take_of_length_le (by omega)]

end Blank

end Shares

/-- Tasks that are shared among `total` workers go, in order and one range to each, to the workers
given: all of them, or all but the one that shares its own. The parts are equal but for one task,
and whoever keeps the rest has an equal part. -/
theorem sharesOf_divides (tasks : List α) (is : List ι) {total : ℕ} (hpos : 0 < total)
    (hcount : total ≤ tasks.length) (htotal : total = is.length ∨ total = is.length + 1) :
    let ranges := sharesOf tasks.length total is
    let rest := (total - is.length) * (tasks.length / total)
    ranges.map Prod.fst = is ∧
      (ranges.flatMap fun r => cut tasks r.2.1 r.2.2) = tasks.take (tasks.length - rest) ∧
      ∀ i first last, (i, first, last) ∈ ranges → first < last ∧ last ≤ tasks.length ∧
        (last - first = tasks.length / total ∨ last - first = tasks.length / total + 1) := by
  intro ranges rest
  generalize hd : tasks.length / total = donation at rest
  have hdonation : 0 < donation := hd ▸ Nat.div_pos hcount hpos
  have hle : donation * total ≤ tasks.length := hd ▸ Nat.div_mul_le_self _ _
  have hlt : tasks.length < donation * total + total := hd ▸ Nat.lt_div_mul_add hpos
  have hranges : ranges =
      shares donation (tasks.length - donation * total) 0 (0 + donation) is := by
    rw [Nat.zero_add, ← hd]
    rfl
  -- The ranges reach as far as the rest begins.
  have hreach : is.length * donation + min (tasks.length - donation * total) is.length =
      tasks.length - rest := by
    rcases htotal with rfl | rfl
    · simp only [rest, Nat.sub_self, Nat.zero_mul, Nat.mul_comm is.length]
      omega
    · simp only [rest, Nat.add_sub_cancel_left, Nat.one_mul, Nat.mul_comm is.length]
      rw [Nat.mul_add, Nat.mul_one] at hle hlt ⊢
      omega
  refine ⟨hranges ▸ map_fst_shares, ?_, ?_⟩
  · rw [hranges, flatMap_shares, hreach, List.drop_zero]
  · rintro i first last hr
    rw [hranges] at hr
    obtain ⟨hsize, hlast⟩ := bounds_of_mem_shares hr
    rw [Nat.zero_add, hreach] at hlast
    omega

theorem sharesOf_divides_seven :
    0 < 3 ∧ ((sharesOf 7 3 [0, 1]).flatMap fun r => cut [1, 2, 3, 4, 5, 6, 7] r.2.1 r.2.2) =
      [1, 2, 3, 4, 5] :=
  ⟨by decide,
    (sharesOf_divides [1, 2, 3, 4, 5, 6, 7] [0, 1] (by decide) (by decide) (.inr rfl)).2.1⟩

namespace PoolWorker

/-- What holds of a worker where its thread is, once the pool is `stopped` or not. The thread of
a `stranded` worker has ended with tasks in the public queue. -/
def Rests (stopped stranded : Prop) (w : PoolWorker α) : Prop :=
  match w.working with
  | .exited => w.idle = true ∧ (¬ stopped → w.privateQueue = [] ∧ (w.publicQueue ≠ [] → stranded))
  | .drain | .relock | .expired => w.idle = false ∧ (¬ stopped → w.privateQueue = [])
  | .waiting =>
      w.idle = false ∧ (¬ stopped → w.privateQueue = []) ∧
        (w.publicQueue ≠ [] → w.taskFound = true ∧ 0 < w.semaphore + w.releasing) ∧
        (w.stopping = .release ∨ w.stopping = .join → w.taskFound = true) ∧
        (w.stopping = .join → 0 < w.semaphore)
  | .woken =>
      w.idle = false ∧ (¬ stopped → w.privateQueue = []) ∧
        (w.publicQueue ≠ [] → w.taskFound = true) ∧
        (w.stopping = .release ∨ w.stopping = .join → w.taskFound = true)
  | .take | .running _ => w.idle = false
  | .donate start _ => w.idle = false ∧ (w.privateQueue.take start).reduceOption = []
  | .test => w.idle = false ∧ w.privateQueue ≠ []
  | .leave => w.idle = false ∧ stopped

/-- A worker keeps something for itself, unless it is about to give tasks to a worker that is
`aborted`. A list of idle workers is left over from such a donation only. -/
def Balances (aborted : ℕ → Prop) (w : PoolWorker α) : Prop :=
  match w.working with
  | .donate start todo =>
      (∀ r ∈ todo, r.1 ∈ w.idleList) ∧
        (start + (todo.map Prod.snd).sum < w.privateQueue.length ∨ ∃ r ∈ todo, aborted r.1)
  | _ => w.idleList = [] ∨ ∃ j ∈ w.idleList, aborted j

structure Stops (stopped : Prop) (w : PoolWorker α) : Prop where
  stopped : w.stopping ≠ .idle → stopped
  exited : w.stopping = .clear ∨ w.stopping = .done → w.working = .exited
  cleared : w.stopping = .done → w.publicQueue = [] ∧ w.privateQueue = []

section Steps

variable {w w' : PoolWorker α} {stopped stranded : Prop} {tasks : List (Option α)}

theorem abort_eq_false_iff : w.abort = false ↔ w.stopping = .idle ∨ w.stopping = .lock := by
  unfold abort
  cases w.stopping <;> simp

theorem Stops.of_abort (h : w.Stops stopped) (ha : w.abort = true) : stopped := by
  refine h.stopped fun hs => ?_
  rw [abort, hs] at ha
  cases ha

theorem rests_new : (new : PoolWorker α).Rests stopped stranded :=
  ⟨rfl, fun _ => ⟨rfl, fun h => absurd rfl h⟩⟩

theorem stops_new : (new : PoolWorker α).Stops stopped :=
  ⟨fun h => absurd rfl h, (by rintro (h | h) <;> cases h), (by rintro ⟨⟩)⟩

theorem Rests.idle_iff (h : w.Rests stopped stranded) :
    w.idle = true ↔ w.working = .exited := by
  unfold Rests at h
  cases hw : w.working with
  | exited =>
    simp only [hw] at h
    exact iff_of_true h.1 rfl
  | take | running =>
    simp only [hw] at h
    exact iff_of_false (by simp [h]) nofun
  | drain | relock | expired | waiting | woken | donate | test | leave =>
    simp only [hw] at h
    exact iff_of_false (by simp [h.1]) nofun

theorem Rests.mono {stopped' stranded' : Prop} (h : w.Rests stopped stranded)
    (hstopped : stopped → stopped') (hstranded : stranded → stranded') :
    w.Rests stopped' stranded' := by
  unfold Rests at h ⊢
  cases hw : w.working with
  | exited =>
    simp only [hw] at h ⊢
    refine ⟨h.1, fun hn => ?_⟩
    obtain ⟨hp, hs⟩ := h.2 (mt hstopped hn)
    exact ⟨hp, fun hne => hstranded (hs hne)⟩
  | drain | relock | expired =>
    simp only [hw] at h ⊢
    exact ⟨h.1, fun hn => h.2 (mt hstopped hn)⟩
  | waiting | woken =>
    simp only [hw] at h ⊢
    exact ⟨h.1, fun hn => h.2.1 (mt hstopped hn), h.2.2⟩
  | leave =>
    simp only [hw] at h ⊢
    exact ⟨h.1, hstopped h.2⟩
  | take | running | donate | test =>
    simp only [hw] at h ⊢
    exact h

/-- What is enqueued reaches a thread: one that is awake or about to be woken up, or a new one. -/
theorem Rests.enqueueForeign {release : Bool} (h : w.Rests stopped stranded)
    (heq : w.enqueueForeign tasks = some (w', release)) :
    (w'.owing release).Rests stopped False := by
  unfold PoolWorker.enqueueForeign at heq
  split at heq
  · cases heq
  split at heq
  · next hidle =>
    cases heq
    have hw := h.idle_iff.mp hidle
    simp only [Rests, hw] at h
    exact ⟨rfl, fun hs => (h.2 hs).1⟩
  · next hidle =>
    cases heq
    have hw' := mt h.idle_iff.mpr hidle
    unfold Rests owing at *
    cases hw : w.working with
    | exited => exact absurd hw hw'
    | waiting =>
      simp only [hw] at h ⊢
      refine ⟨h.1, h.2.1, fun _ => ⟨trivial, ?_⟩, fun _ => trivial, h.2.2.2.2⟩
      split
      · omega
      · next hne =>
        have hpos := (h.2.2.1 (by simpa using hne)).2
        omega
    | woken =>
      simp only [hw] at h ⊢
      exact ⟨h.1, h.2.1, fun _ => trivial, fun _ => trivial⟩
    | drain | relock | expired | take | running | donate | test | leave =>
      simp only [hw] at h ⊢
      exact h

theorem stopping_ne_of_abort (h : w.abort = false) :
    w.stopping ≠ .clear ∧ w.stopping ≠ .done := by
  rcases abort_eq_false_iff.mp h with hs | hs <;> simp [hs]

theorem abort_enqueueForeign {release : Bool}
    (heq : w.enqueueForeign tasks = some (w', release)) : (w'.owing release).abort = w.abort := by
  unfold PoolWorker.enqueueForeign at heq
  split at heq
  · cases heq
  · split at heq <;> cases heq <;> rfl

theorem Stops.enqueueForeign {release : Bool} (h : w.Stops stopped)
    (heq : w.enqueueForeign tasks = some (w', release)) :
    (w'.owing release).Stops stopped := by
  unfold PoolWorker.enqueueForeign at heq
  split at heq
  · cases heq
  next ha =>
  obtain ⟨hclear, hdone⟩ := stopping_ne_of_abort (Bool.eq_false_iff.mpr ha)
  split at heq <;> cases heq
  · exact ⟨h.stopped, fun hs => (hs.elim hclear hdone).elim, fun hs => absurd hs hdone⟩
  · exact ⟨h.stopped, h.exited, fun hs => absurd hs hdone⟩

theorem Rests.release (h : w.Rests stopped stranded) : w.release.Rests stopped stranded := by
  unfold PoolWorker.release
  split
  · exact h
  · next n hn =>
    unfold Rests at h ⊢
    cases hw : w.working with
    | waiting =>
      simp only [hw] at h ⊢
      refine ⟨h.1, h.2.1, fun hne => ⟨(h.2.2.1 hne).1, ?_⟩, h.2.2.2.1, fun hj => ?_⟩
      · have hpos := (h.2.2.1 hne).2
        omega
      · have hpos := h.2.2.2.2 hj
        omega
    | exited | woken | drain | relock | expired | take | running | donate | test | leave =>
      simp only [hw] at h ⊢
      exact h

theorem Stops.release (h : w.Stops stopped) : w.release.Stops stopped := by
  unfold PoolWorker.release
  split
  · exact h
  · exact ⟨h.stopped, h.exited, h.cleared⟩

/-- A thread may end when the pool is stopped, or with nothing left to do but for what strands. -/
theorem Rests.exit (hp : ¬ stopped → w.privateQueue = [] ∧ (w.publicQueue ≠ [] → stranded)) :
    w.exit.Rests stopped stranded := ⟨rfl, hp⟩

theorem Rests.wait (hidle : w.idle = false) (hp : ¬ stopped → w.privateQueue = [])
    (ha : w.abort = false) (he : w.publicQueue = []) :
    Rests stopped stranded { w with working := .waiting } := by
  have hs := abort_eq_false_iff.mp ha
  refine ⟨hidle, hp, fun hne => absurd he hne, fun h => ?_, fun h => ?_⟩
  · rcases hs with hs | hs <;> rcases h with h | h <;> cases hs.symm.trans h
  · rcases hs with hs | hs <;> cases hs.symm.trans h

theorem Rests.balanceWork (hidle : w.idle = false) (hne : w.privateQueue ≠ []) (size : ℕ)
    (found : List ℕ) : (w.balanceWork size found).Rests stopped stranded := by
  simp only [PoolWorker.balanceWork]
  split
  · exact ⟨hidle, hne⟩
  · exact ⟨hidle, by rw [List.take_zero]; rfl⟩

theorem stopping_balanceWork (size : ℕ) (found : List ℕ) :
    (w.balanceWork size found).stopping = w.stopping := by
  simp only [PoolWorker.balanceWork]
  split <;> rfl

theorem Rests.stepWorker {aborted : ℕ → Prop} (h : w.Rests stopped stranded)
    (hs : w.Stops stopped) (hb : w.Balances aborted) (size : ℕ) (expired : Bool)
    (found : List ℕ) :
    (w.stepWorker size expired found).Rests stopped
      (stranded ∨ w.working = .expired ∧ w.publicQueue ≠ []) := by
  cases hw : w.working with
  | exited =>
    simp only [PoolWorker.stepWorker, hw]
    exact h.mono id .inl
  | drain =>
    simp only [PoolWorker.stepWorker, hw]
    simp only [Rests, hw] at h
    split
    · next ha => exact .exit fun hn => absurd (hs.of_abort ha) hn
    · next ha =>
      split
      · next he => exact .wait h.1 h.2 (Bool.eq_false_iff.mpr ha) (List.isEmpty_iff.mp he)
      · exact h.1
  | waiting =>
    have h' := h
    simp only [Rests, hw] at h'
    simp only [PoolWorker.stepWorker, hw]
    split
    · split
      · exact ⟨h'.1, h'.2.1⟩
      · exact h.mono id .inl
    · exact ⟨h'.1, h'.2.1, fun hne => (h'.2.2.1 hne).1, h'.2.2.2.1⟩
  | woken =>
    simp only [PoolWorker.stepWorker, hw]
    simp only [Rests, hw] at h
    split
    · exact ⟨h.1, h.2.1⟩
    · next hf =>
      refine ⟨h.1, h.2.1, fun hne => absurd (h.2.2.1 hne) hf, h.2.2.2, fun hj => ?_⟩
      exact absurd (h.2.2.2 (.inr hj)) hf
  | relock =>
    simp only [PoolWorker.stepWorker, hw]
    simp only [Rests, hw] at h
    split
    · next ha => exact .exit fun hn => absurd (hs.of_abort ha) hn
    · next ha =>
      split
      · next he => exact .wait h.1 h.2 (Bool.eq_false_iff.mpr ha) (List.isEmpty_iff.mp he)
      · exact h.1
  | expired =>
    simp only [PoolWorker.stepWorker, hw]
    simp only [Rests, hw] at h
    exact .exit fun hn => ⟨h.2 hn, fun hne => .inr ⟨trivial, hne⟩⟩
  | take =>
    simp only [PoolWorker.stepWorker, hw]
    simp only [Rests, hw] at h
    split
    · next he => exact ⟨h, fun _ => List.isEmpty_iff.mp he⟩
    · next he => exact .balanceWork h (mt List.isEmpty_iff.mpr he) size found
  | donate start todo =>
    cases todo with
    | nil =>
      simp only [PoolWorker.stepWorker, hw]
      simp only [Rests, Balances, hw] at h hb
      refine ⟨h.1, List.ne_nil_of_length_pos ?_⟩
      rw [List.length_drop]
      rcases hb.2 with hlt | ⟨r, hr, -⟩
      · exact Nat.sub_pos_of_lt hlt
      · exact absurd hr List.not_mem_nil
    | cons r todo =>
      simp only [PoolWorker.stepWorker, hw]
      exact h.mono id .inl
  | test =>
    simp only [PoolWorker.stepWorker, hw]
    simp only [Rests, hw] at h
    split
    · next ha => exact ⟨h.1, hs.stopped (by simpa [atomicAbort] using ha)⟩
    · split
      · next hn => exact absurd (List.getLast?_eq_none_iff.mp hn) h.2
      · exact h.1
  | running task =>
    simp only [PoolWorker.stepWorker, hw]
    simp only [Rests, hw] at h
    exact h
  | leave =>
    simp only [PoolWorker.stepWorker, hw]
    simp only [Rests, hw] at h
    exact .exit fun hn => absurd h.2 hn

theorem stopping_stepWorker (size : ℕ) (expired : Bool) (found : List ℕ) :
    (w.stepWorker size expired found).stopping = w.stopping := by
  cases hw : w.working with
  | exited | woken | running => simp only [PoolWorker.stepWorker, hw]
  | expired | leave =>
    simp only [PoolWorker.stepWorker, hw]
    rfl
  | drain | relock =>
    simp only [PoolWorker.stepWorker, hw]
    split
    · rfl
    · split <;> rfl
  | waiting =>
    simp only [PoolWorker.stepWorker, hw]
    split
    · split <;> rfl
    · rfl
  | take =>
    simp only [PoolWorker.stepWorker, hw]
    split
    · rfl
    · exact stopping_balanceWork size found
  | donate start todo => cases todo <;> simp only [PoolWorker.stepWorker, hw]
  | test =>
    simp only [PoolWorker.stepWorker, hw]
    split
    · rfl
    · split <;> rfl

theorem Stops.stepWorker (h : w.Stops stopped) (size : ℕ) (expired : Bool) (found : List ℕ) :
    (w.stepWorker size expired found).Stops stopped := by
  by_cases hs : w.stopping = .clear ∨ w.stopping = .done
  · have hw := h.exited hs
    simp only [PoolWorker.stepWorker, hw]
    exact h
  · rw [not_or] at hs
    constructor <;> rw [stopping_stepWorker]
    · exact h.stopped
    · exact fun hs' => (hs'.elim hs.1 hs.2).elim
    · exact fun hs' => absurd hs' hs.2

theorem Rests.donate {start count j : ℕ} {todo : List (ℕ × ℕ)} (h : w.Rests stopped stranded)
    (hw : w.working = .donate start ((j, count) :: todo)) :
    Rests stopped stranded
      { w with
        privateQueue := blank w.privateQueue start (start + count)
        working := .donate (start + count) todo } := by
  simp only [Rests, hw] at h
  exact ⟨h.1, reduceOption_take_blank (Nat.le_add_right start count) h.2⟩

theorem Rests.enqueueLocal {more : List α} (h : w.Rests stopped stranded)
    (heq : w.enqueueLocal more = some w') : w'.Rests stopped stranded := by
  unfold PoolWorker.enqueueLocal at heq
  split at heq
  · next hw =>
    split at heq
    · cases heq
    · cases heq
      simp only [Rests, hw] at h ⊢
      exact h
  · cases heq

theorem Stops.enqueueLocal {more : List α} (h : w.Stops stopped)
    (heq : w.enqueueLocal more = some w') : w'.Stops stopped := by
  unfold PoolWorker.enqueueLocal at heq
  split at heq
  · next hw =>
    split at heq <;> cases heq
    refine ⟨h.stopped, h.exited, fun hs => ?_⟩
    cases hw.symm.trans (h.exited (.inr hs))
  · cases heq

theorem Rests.stop (h : w.Rests stopped stranded) (hworking : w'.working = w.working)
    (hidle : w'.idle = w.idle) (hqueues : w'.privateQueue = w.privateQueue ∧
      w'.publicQueue = w.publicQueue) (hreleasing : w'.releasing = w.releasing)
    (hsemaphore : w.semaphore ≤ w'.semaphore) (hfound : w.taskFound = true → w'.taskFound = true)
    (hrelease : w'.stopping = .release ∨ w'.stopping = .join →
      w'.taskFound = true ∨ w.stopping = .release)
    (hjoin : w'.stopping = .join → 0 < w'.semaphore) : w'.Rests stopped stranded := by
  unfold Rests at h ⊢
  rw [hworking, hidle, hqueues.1, hqueues.2, hreleasing]
  cases hw : w.working with
  | waiting =>
    simp only [hw] at h ⊢
    refine ⟨h.1, h.2.1, fun hne => ⟨hfound (h.2.2.1 hne).1, ?_⟩, fun hs => ?_, hjoin⟩
    · have hpos := (h.2.2.1 hne).2
      omega
    · rcases hrelease hs with hs | hs
      · exact hs
      · exact hfound (h.2.2.2.1 (.inl hs))
  | woken =>
    simp only [hw] at h ⊢
    refine ⟨h.1, h.2.1, fun hne => hfound (h.2.2.1 hne), fun hs => ?_⟩
    rcases hrelease hs with hs | hs
    · exact hs
    · exact hfound (h.2.2.2 (.inl hs))
  | exited | drain | relock | expired | take | running | donate | test | leave =>
    simp only [hw] at h ⊢
    exact h

theorem Rests.stepShutdown (h : w.Rests stopped stranded) (hs : w.Stops stopped)
    (hstopped : stopped) : w.stepShutdown.Rests stopped stranded := by
  cases hst : w.stopping with
  | idle | lock =>
    simp only [PoolWorker.stepShutdown, hst]
    exact h.stop rfl rfl ⟨rfl, rfl⟩ rfl (Nat.le_refl _) id (by rintro (h | h) <;> cases h) nofun
  | found =>
    simp only [PoolWorker.stepShutdown, hst]
    exact h.stop rfl rfl ⟨rfl, rfl⟩ rfl (Nat.le_refl _) (fun _ => rfl) (fun _ => .inl rfl) nofun
  | release =>
    simp only [PoolWorker.stepShutdown, hst]
    exact h.stop rfl rfl ⟨rfl, rfl⟩ rfl (Nat.le_succ _) id (fun _ => .inr hst)
      fun _ => Nat.succ_pos _
  | join =>
    simp only [PoolWorker.stepShutdown, hst]
    split
    · exact h.stop rfl rfl ⟨rfl, rfl⟩ rfl (Nat.le_refl _) id (by rintro (h | h) <;> cases h) nofun
    · exact h
  | clear =>
    simp only [PoolWorker.stepShutdown, hst]
    have hw := hs.exited (.inl hst)
    simp only [Rests, hw] at h ⊢
    exact ⟨h.1, fun hn => absurd hstopped hn⟩
  | done =>
    simp only [PoolWorker.stepShutdown, hst]
    exact h

theorem Stops.stepShutdown (h : w.Stops stopped) (hstopped : stopped) :
    w.stepShutdown.Stops stopped := by
  refine ⟨fun _ => hstopped, ?_, ?_⟩ <;>
    cases hst : w.stopping <;> simp only [PoolWorker.stepShutdown, hst]
  case refine_1.join =>
    split
    · next hw => exact fun _ => hw
    · rintro (h | h) <;> cases hst.symm.trans h
  case refine_1.clear => exact fun _ => h.exited (.inl hst)
  case refine_1.done => exact fun _ => h.exited (.inr hst)
  case refine_2.join =>
    split
    · rintro ⟨⟩
    · intro h
      cases hst.symm.trans h
  case refine_2.clear => exact fun _ => ⟨trivial, trivial⟩
  case refine_2.done => exact fun _ => h.cleared hst
  all_goals simp

theorem Stops.mono {stopped' : Prop} (h : w.Stops stopped) (hstopped : stopped → stopped') :
    w.Stops stopped' := ⟨fun hs => hstopped (h.stopped hs), h.exited, h.cleared⟩

section Balances

variable {aborted aborted' : ℕ → Prop}

theorem Balances.mono (h : w.Balances aborted) (ha : ∀ j, aborted j → aborted' j) :
    w.Balances aborted' := by
  unfold Balances at h ⊢
  split at h
  · obtain ⟨hmem, hlt | ⟨r, hr, hr'⟩⟩ := h
    · exact ⟨hmem, .inl hlt⟩
    · exact ⟨hmem, .inr ⟨r, hr, ha r.1 hr'⟩⟩
  · rcases h with h | ⟨j, hj, hj'⟩
    · exact .inl h
    · exact .inr ⟨j, hj, ha j hj'⟩

theorem balances_of_stale (hw : ∀ start todo, w.working ≠ .donate start todo)
    (h : w.idleList = [] ∨ ∃ j ∈ w.idleList, aborted j) : w.Balances aborted := by
  unfold Balances
  split
  · next start todo hw' => exact absurd hw' (hw start todo)
  · exact h

theorem Balances.stale (h : w.Balances aborted)
    (hw : ∀ start todo, w.working ≠ .donate start todo) :
    w.idleList = [] ∨ ∃ j ∈ w.idleList, aborted j := by
  unfold Balances at h
  split at h
  · next start todo hw' => exact absurd hw' (hw start todo)
  · exact h

theorem Balances.congr (h : w.Balances aborted) (hworking : w'.working = w.working)
    (hidle : w'.idleList = w.idleList)
    (hlength : w'.privateQueue.length = w.privateQueue.length ∨
      ∀ start todo, w.working ≠ .donate start todo) : w'.Balances aborted := by
  rcases hlength with hlength | hw
  · unfold Balances at h ⊢
    rwa [hworking, hidle, hlength]
  · refine balances_of_stale (by rwa [hworking]) ?_
    rw [hidle]
    exact h.stale hw

theorem Balances.enqueueForeign {release : Bool} (h : w.Balances aborted)
    (hr : w.Rests stopped stranded) (heq : w.enqueueForeign tasks = some (w', release)) :
    (w'.owing release).Balances aborted := by
  unfold PoolWorker.enqueueForeign at heq
  split at heq
  · cases heq
  split at heq
  · next hidle =>
    cases heq
    have hw := hr.idle_iff.mp hidle
    exact balances_of_stale (by simp) (h.stale (by simp [hw]))
  · cases heq
    exact h.congr rfl rfl (.inl rfl)

theorem Balances.balanceWork (h : w.Balances aborted) (hw : w.working = .take)
    (hne : w.privateQueue ≠ []) (size : ℕ) (found : List ℕ) :
    (w.balanceWork size found).Balances aborted := by
  have hstale := h.stale (by simp [hw])
  have hpos : 0 < w.privateQueue.length := List.length_pos_iff.mpr hne
  simp only [PoolWorker.balanceWork]
  split
  · exact balances_of_stale (by simp) hstale
  · have hfst : ∀ idle : List ℕ, (sharesOf w.privateQueue.length (idle.length + 1) idle).map
        Prod.fst = idle := fun idle => map_fst_shares
    refine ⟨fun r hr => ?_, ?_⟩
    · obtain ⟨r', hr', rfl⟩ := List.mem_map.mp hr
      exact mem_of_mem_shares hr'
    · rcases hstale with hnil | ⟨j, hj, hj'⟩
      · left
        rw [hnil, List.nil_append, List.map_map, Nat.zero_add]
        apply sum_sharesOf_lt
        rw [List.length_take]
        omega
      · right
        have hmem : j ∈ w.idleList ++ found.take (min (size - 1) (w.privateQueue.length - 1)) :=
          List.mem_append_left _ hj
        rw [← hfst (w.idleList ++ _), List.mem_map] at hmem
        obtain ⟨r, hr, rfl⟩ := hmem
        exact ⟨_, List.mem_map_of_mem hr, hj'⟩

theorem Balances.stepWorker (h : w.Balances aborted) (size : ℕ) (expired : Bool)
    (found : List ℕ) : (w.stepWorker size expired found).Balances aborted := by
  cases hw : w.working with
  | take =>
    simp only [PoolWorker.stepWorker, hw]
    split
    · exact balances_of_stale (by simp) (h.stale (by simp [hw]))
    · next he => exact h.balanceWork hw (mt List.isEmpty_iff.mpr he) size found
  | donate start todo =>
    cases todo with
    | nil =>
      simp only [PoolWorker.stepWorker, hw]
      exact balances_of_stale (by simp) (.inl rfl)
    | cons r todo =>
      simp only [PoolWorker.stepWorker, hw]
      exact h
  | drain | relock =>
    have hstale := h.stale (by simp [hw])
    simp only [PoolWorker.stepWorker, hw]
    split
    · exact balances_of_stale (by simp) hstale
    · split <;> exact balances_of_stale (by simp) hstale
  | waiting =>
    have hstale := h.stale (by simp [hw])
    simp only [PoolWorker.stepWorker, hw]
    split
    · split
      · exact balances_of_stale (by simp) hstale
      · exact h
    · exact balances_of_stale (by simp) hstale
  | woken =>
    have hstale := h.stale (by simp [hw])
    simp only [PoolWorker.stepWorker, hw]
    refine balances_of_stale (fun start todo => ?_) hstale
    simp only
    split <;> simp
  | test =>
    have hstale := h.stale (by simp [hw])
    simp only [PoolWorker.stepWorker, hw]
    split
    · exact balances_of_stale (by simp) hstale
    · split <;> exact balances_of_stale (by simp) hstale
  | exited =>
    simp only [PoolWorker.stepWorker, hw]
    exact h
  | expired | running | leave =>
    simp only [PoolWorker.stepWorker, hw]
    exact balances_of_stale (by simp) (h.stale (by simp [hw]))

theorem Balances.release (h : w.Balances aborted) : w.release.Balances aborted := by
  unfold PoolWorker.release
  split
  · exact h
  · exact h.congr rfl rfl (.inl rfl)

theorem Balances.enqueueLocal {more : List α} (h : w.Balances aborted)
    (heq : w.enqueueLocal more = some w') : w'.Balances aborted := by
  unfold PoolWorker.enqueueLocal at heq
  split at heq
  · next hw =>
    split at heq <;> cases heq
    exact h.congr rfl rfl (.inr (by simp [hw]))
  · cases heq

theorem Balances.stepShutdown (h : w.Balances aborted) (hs : w.Stops stopped) :
    w.stepShutdown.Balances aborted := by
  cases hst : w.stopping with
  | clear =>
    simp only [PoolWorker.stepShutdown, hst]
    exact h.congr rfl rfl (.inr (by simp [hs.exited (.inl hst)]))
  | join =>
    simp only [PoolWorker.stepShutdown, hst]
    split <;> exact h.congr rfl rfl (.inl rfl)
  | idle | lock | found | release | done =>
    simp only [PoolWorker.stepShutdown, hst]
    exact h.congr rfl rfl (.inl rfl)

theorem Balances.donate {start count j : ℕ} {todo : List (ℕ × ℕ)} (h : w.Balances aborted)
    (hw : w.working = .donate start ((j, count) :: todo)) (hj : ¬ aborted j) :
    Balances aborted
      { w with
        privateQueue := blank w.privateQueue start (start + count)
        working := .donate (start + count) todo } := by
  simp only [Balances, hw] at h
  obtain ⟨hmem, hlt⟩ := h
  refine ⟨fun r hr => hmem r (List.mem_cons_of_mem _ hr), ?_⟩
  simp only [length_blank (Nat.le_add_right start count)]
  rcases hlt with hlt | ⟨r, hr, ha⟩
  · rw [List.map_cons, List.sum_cons, ← Nat.add_assoc] at hlt
    exact .inl hlt
  · rcases List.mem_cons.mp hr with rfl | hr
    · exact absurd ha hj
    · exact .inr ⟨r, hr, ha⟩

/-- The list of a donation that is refused stays, and with it the worker that has refused. -/
theorem Balances.refused {start count j : ℕ} {todo : List (ℕ × ℕ)} (h : w.Balances aborted)
    (hw : w.working = .donate start ((j, count) :: todo)) (hj : aborted j) :
    Balances aborted { w with working := .leave } := by
  simp only [Balances, hw] at h
  exact .inr ⟨j, h.1 _ List.mem_cons_self, hj⟩

end Balances

theorem mem_idleList_stepWorker {size j : ℕ} {expired : Bool} {found : List ℕ}
    (h : j ∈ (w.stepWorker size expired found).idleList) : j ∈ w.idleList ∨ j ∈ found := by
  cases hw : w.working with
  | take =>
    simp only [PoolWorker.stepWorker, hw] at h
    split at h
    · exact .inl h
    · simp only [PoolWorker.balanceWork] at h
      split at h
      · exact .inl h
      · exact (List.mem_append.mp h).imp_right List.mem_of_mem_take
  | donate start todo =>
    cases todo with
    | nil =>
      simp only [PoolWorker.stepWorker, hw] at h
      exact absurd h List.not_mem_nil
    | cons r todo =>
      simp only [PoolWorker.stepWorker, hw] at h
      exact .inl h
  | drain | relock | test =>
    simp only [PoolWorker.stepWorker, hw] at h
    split at h
    · exact .inl h
    · split at h <;> exact .inl h
  | waiting =>
    simp only [PoolWorker.stepWorker, hw] at h
    split at h
    · split at h <;> exact .inl h
    · exact .inl h
  | exited | woken | expired | running | leave =>
    simp only [PoolWorker.stepWorker, hw] at h
    exact .inl h

/-- What holds of a worker that knows of the workers that are `others`. -/
structure Holds (others aborted : ℕ → Prop) (stopped stranded : Prop) (w : PoolWorker α) :
    Prop where
  rests : w.Rests stopped stranded
  stops : w.Stops stopped
  targets : ∀ j ∈ w.idleList, others j
  balances : w.Balances aborted

/-- A worker is as far with its `shutdown` as it has been, or further. -/
structure Later (w w' : PoolWorker α) : Prop where
  abort : w.abort = true → w'.abort = true
  done : w.stopping = .done → w'.stopping = .done

theorem later_of_eq (h : w'.stopping = w.stopping) : w.Later w' :=
  ⟨fun ha => by rwa [abort, h], fun hd => h.trans hd⟩

theorem later_stepShutdown (w : PoolWorker α) : w.Later w.stepShutdown := by
  cases hst : w.stopping with
  | join =>
    simp only [PoolWorker.stepShutdown, hst]
    split
    · exact ⟨fun _ => rfl, fun hd => by cases hst.symm.trans hd⟩
    · exact later_of_eq rfl
  | done =>
    simp only [PoolWorker.stepShutdown, hst]
    exact later_of_eq rfl
  | idle | lock | found | release | clear =>
    refine ⟨fun ha => ?_, fun hd => by cases hst.symm.trans hd⟩
    simp [PoolWorker.abort, hst, PoolWorker.stepShutdown] at ha ⊢

section Holds

variable {others aborted : ℕ → Prop}

theorem holds_new : (new : PoolWorker α).Holds others aborted stopped stranded :=
  ⟨rests_new, stops_new, fun _ hj => absurd hj List.not_mem_nil, .inl rfl⟩

theorem Holds.mono {aborted' : ℕ → Prop} {stopped' stranded' : Prop}
    (h : w.Holds others aborted stopped stranded) (ha : ∀ j, aborted j → aborted' j)
    (hstopped : stopped → stopped') (hstranded : stranded → stranded') :
    w.Holds others aborted' stopped' stranded' :=
  ⟨h.rests.mono hstopped hstranded, h.stops.mono hstopped, h.targets, h.balances.mono ha⟩

theorem Holds.enqueueForeign {release : Bool} (h : w.Holds others aborted stopped stranded)
    (heq : w.enqueueForeign tasks = some (w', release)) :
    (w'.owing release).Holds others aborted stopped False ∧ w.Later (w'.owing release) := by
  refine ⟨⟨h.rests.enqueueForeign heq, h.stops.enqueueForeign heq, ?_,
    h.balances.enqueueForeign h.rests heq⟩, ?_⟩ <;>
  · unfold PoolWorker.enqueueForeign at heq
    split at heq
    · cases heq
    · split at heq <;> cases heq <;> first | exact h.targets | exact later_of_eq rfl

theorem Holds.release (h : w.Holds others aborted stopped stranded) :
    w.release.Holds others aborted stopped stranded ∧ w.Later w.release := by
  refine ⟨⟨h.rests.release, h.stops.release, ?_, h.balances.release⟩, ?_⟩ <;>
  · unfold PoolWorker.release
    split <;> first | exact h.targets | exact later_of_eq rfl

theorem Holds.enqueueLocal {more : List α} (h : w.Holds others aborted stopped stranded)
    (heq : w.enqueueLocal more = some w') :
    w'.Holds others aborted stopped stranded ∧ w.Later w' := by
  refine ⟨⟨h.rests.enqueueLocal heq, h.stops.enqueueLocal heq, ?_,
    h.balances.enqueueLocal heq⟩, ?_⟩ <;>
  · unfold PoolWorker.enqueueLocal at heq
    split at heq
    · split at heq
      · cases heq
      · cases heq
        first | exact h.targets | exact later_of_eq rfl
    · cases heq

theorem Holds.stepWorker (h : w.Holds others aborted stopped stranded) (size : ℕ)
    (expired : Bool) {found : List ℕ} (hfound : ∀ j ∈ found, others j) :
    (w.stepWorker size expired found).Holds others aborted stopped
        (stranded ∨ w.working = .expired ∧ w.publicQueue ≠ []) ∧
      w.Later (w.stepWorker size expired found) := by
  refine ⟨⟨h.rests.stepWorker h.stops h.balances size expired found,
    h.stops.stepWorker size expired found, fun j hj => ?_,
    h.balances.stepWorker size expired found⟩, later_of_eq (stopping_stepWorker size expired found)⟩
  exact (mem_idleList_stepWorker hj).elim (h.targets j) (hfound j)

theorem Holds.stepShutdown (h : w.Holds others aborted stopped stranded) (hstopped : stopped) :
    w.stepShutdown.Holds others aborted stopped stranded ∧ w.Later w.stepShutdown := by
  refine ⟨⟨h.rests.stepShutdown h.stops hstopped, h.stops.stepShutdown hstopped, ?_,
    h.balances.stepShutdown h.stops⟩, later_stepShutdown w⟩
  unfold PoolWorker.stepShutdown
  split <;> (try split) <;> exact h.targets

theorem Stops.of_donate {start : ℕ} {todo : List (ℕ × ℕ)} (h : w.Stops stopped)
    (hw : w.working = .donate start todo) (queue : List (Option α)) (working : PoolWorking α) :
    Stops stopped { w with privateQueue := queue, working := working } := by
  have hne : ¬ (w.stopping = .clear ∨ w.stopping = .done) := by
    intro hs
    cases hw.symm.trans (h.exited hs)
  exact ⟨h.stopped, fun hs => absurd hs hne, fun hs => absurd (.inr hs) hne⟩

variable {start count j : ℕ} {todo : List (ℕ × ℕ)}

theorem Holds.donate (h : w.Holds others aborted stopped stranded)
    (hw : w.working = .donate start ((j, count) :: todo)) (hj : ¬ aborted j) :
    Holds others aborted stopped stranded
      { w with
        privateQueue := blank w.privateQueue start (start + count)
        working := .donate (start + count) todo } :=
  ⟨h.rests.donate hw, h.stops.of_donate hw _ _, h.targets, h.balances.donate hw hj⟩

theorem Holds.refused (h : w.Holds others aborted stopped stranded)
    (hw : w.working = .donate start ((j, count) :: todo)) (hj : aborted j) (hstopped : stopped) :
    Holds others aborted stopped stranded { w with working := .leave } := by
  have hrests := h.rests
  simp only [Rests, hw] at hrests
  exact ⟨⟨hrests.1, hstopped⟩, h.stops.of_donate hw _ _, h.targets, h.balances.refused hw hj⟩

theorem Holds.thrown (h : w.Holds others aborted stopped stranded) (hstopped : stopped) :
    w.thrown.Holds others aborted stopped stranded ∧ w.Later w.thrown := by
  unfold PoolWorker.thrown
  split
  · next task hw =>
    obtain ⟨hrests, hstops, htargets, hbalances⟩ := h
    simp only [Rests, Balances, hw] at hrests hbalances
    refine ⟨⟨⟨hrests, hstopped⟩, ⟨hstops.stopped, fun hs => ?_, hstops.cleared⟩, htargets,
      hbalances⟩, later_of_eq rfl⟩
    cases hw.symm.trans (hstops.exited hs)
  · exact ⟨h, later_of_eq rfl⟩

theorem Holds.target (h : w.Holds others aborted stopped stranded)
    (hw : w.working = .donate start ((j, count) :: todo)) : others j := by
  have hbalances := h.balances
  simp only [Balances, hw] at hbalances
  exact h.targets j (hbalances.1 _ List.mem_cons_self)

end Holds

end Steps

end PoolWorker

end Plain.Concurrency
