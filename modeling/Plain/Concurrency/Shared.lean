import Plain.Concurrency.State
import Plain.Foundation.Linked
import Plain.Foundation.Machine
import Plain.Foundation.Pool

/-! # Awaiting a shared result

Any number of coroutines await one shared result, and any number of threads wait for it. A
coroutine puts its context in front of a linked list by a compare-exchange that it repeats until
it succeeds, or until it finds the result ready. Whoever finishes the result takes the list,
turns it around and resumes the coroutines in the order in which they came. Steps of one access
to shared memory interleave arbitrarily.
-/

namespace Plain.Concurrency

open Linked

/-- Where a coroutine is in `await`: past its load of the head of the list, in the list, gone on
without being suspended, or resumed. -/
inductive Awaiting where
  | load
  | swap (before : Option ℕ)
  | suspended
  | passed
  | resumed
  deriving DecidableEq, Repr

inductive Waiting where
  | test
  | native
  | blocked
  | returned
  deriving DecidableEq, Repr

inductive Finishing where
  | store
  | notify
  | exchange
  | turn (awaiters : Option ℕ)
  | resume (awaiters : Option ℕ)
  | finished
  deriving DecidableEq, Repr

/-- A shared state and all who use it. Contexts are numbered as their coroutines are; the head
of the list is a pointer, or `none` for `ready_constant()`. -/
structure SharedState where
  status : ResultStatus
  awaiters : Option (Option ℕ)
  next : ℕ → Option ℕ
  awaiting : List Awaiting
  waiting : List Waiting
  finishing : Finishing
  faulted : Bool

/-- A new coroutine, a new thread, the next step of one of them or of `on_finished`. A weak
compare-exchange may fail, and a wait may end, for no reason. -/
inductive SharedOp where
  | coAwait
  | await (k : ℕ) (spurious : Bool)
  | wait
  | waits (k : ℕ) (spurious : Bool)
  | finish
  deriving DecidableEq, Repr

namespace SharedState

def new : SharedState := ⟨.idle, some none, fun _ => none, [], [], .store, false⟩

def stepAwait (s : SharedState) (k : ℕ) (spurious : Bool) : SharedState :=
  match s.awaiting[k]? with
  | some .load =>
      match s.awaiters with
      | none => { s with awaiting := s.awaiting.set k .passed }
      | some before =>
          { s with
            next := Function.update s.next k before
            awaiting := s.awaiting.set k (.swap before) }
  | some (.swap before) =>
      if s.awaiters = some before ∧ spurious = false then
        { s with awaiters := some (some k), awaiting := s.awaiting.set k .suspended }
      else { s with awaiting := s.awaiting.set k .load }
  | some .suspended | some .passed | some .resumed | none => s

def stepWait (s : SharedState) (k : ℕ) (spurious : Bool) : SharedState :=
  match s.waiting[k]? with
  | some .test =>
      { s with waiting := s.waiting.set k (if s.status = .idle then .native else .returned) }
  | some .native =>
      { s with waiting := s.waiting.set k (if s.status = .idle then .blocked else .test) }
  | some .blocked =>
      { s with waiting := s.waiting.set k (if spurious then .test else .blocked) }
  | some .returned | none => s

def notifyAll (s : SharedState) : List Waiting :=
  s.waiting.map fun w => if w = .blocked then .test else w

/-- The next step of `on_finished`. Only a suspended coroutine can be resumed. -/
def stepFinish (status : ResultStatus) (s : SharedState) : SharedState :=
  match s.finishing with
  | .store => { s with status := status, finishing := .notify }
  | .notify => { s with waiting := s.notifyAll, finishing := .exchange }
  | .exchange =>
      match s.awaiters with
      | some awaiters => { s with awaiters := none, finishing := .turn awaiters }
      | none => { s with faulted := true, finishing := .finished }
  | .turn awaiters =>
      match turn s.next s.awaiting.length awaiters none with
      | some (next, awaiters) => { s with next := next, finishing := .resume awaiters }
      | none => { s with faulted := true, finishing := .finished }
  | .resume none => { s with finishing := .finished }
  | .resume (some k) =>
      { s with
        awaiting := s.awaiting.set k .resumed
        finishing := .resume (s.next k)
        faulted := s.faulted || s.awaiting[k]? ≠ some .suspended }
  | .finished => s

end SharedState

def sharing (status : ResultStatus) : Machine SharedState SharedOp Unit where
  step s
    | .coAwait => ({ s with awaiting := s.awaiting ++ [.load] }, ())
    | .await k spurious => (s.stepAwait k spurious, ())
    | .wait => ({ s with waiting := s.waiting ++ [.test] }, ())
    | .waits k spurious => (s.stepWait k spurious, ())
    | .finish => (s.stepFinish status, ())

/-- The coroutines that have been suspended and those that have been resumed, in order. -/
structure Order where
  suspended : List ℕ
  resumed : List ℕ
  deriving DecidableEq, Repr

def Order.note (s : SharedState) (order : Order) : SharedOp → Order
  | .await k spurious =>
      match s.awaiting[k]? with
      | some (.swap before) =>
          if s.awaiters = some before ∧ spurious = false then
            { order with suspended := order.suspended ++ [k] }
          else order
      | _ => order
  | .finish =>
      match s.finishing with
      | .resume (some k) => { order with resumed := order.resumed ++ [k] }
      | _ => order
  | .coAwait | .wait | .waits _ _ => order

namespace SharedState

/-- Where the suspended coroutines are while the result is being finished. -/
def Holds (s : SharedState) (order : Order) : Prop :=
  match s.finishing with
  | .store | .notify | .exchange =>
      order.resumed = [] ∧ ∃ head, s.awaiters = some head ∧
        Chain s.next order.suspended.reverse head
  | .turn awaiters =>
      order.resumed = [] ∧ s.awaiters = none ∧ Chain s.next order.suspended.reverse awaiters
  | .resume awaiters =>
      s.awaiters = none ∧ ∃ rest, order.suspended = order.resumed ++ rest ∧
        Chain s.next rest awaiters
  | .finished => s.awaiters = none ∧ order.suspended = order.resumed

/-- The list, the coroutines and their order fit together. -/
structure Orderly (s : SharedState) (order : Order) : Prop where
  sound : s.faulted = false
  holds : s.Holds order
  nodup : order.suspended.Nodup
  suspended : ∀ k, k ∈ order.suspended ∧ k ∉ order.resumed ↔ s.awaiting[k]? = some .suspended
  resumed : ∀ k, k ∈ order.resumed ↔ s.awaiting[k]? = some .resumed
  swapping : ∀ k before, s.awaiting[k]? = some (.swap before) → s.next k = before

/-- What the threads and the coroutines that have gone on know. -/
structure Told (status : ResultStatus) (s : SharedState) : Prop where
  status_eq : s.status = if s.finishing = .store then .idle else status
  passed : ∀ k : ℕ, s.awaiting[k]? = some .passed → s.awaiters = none
  blocked : ∀ k : ℕ, s.waiting[k]? = some .blocked → s.finishing = .store ∨ s.finishing = .notify
  returned : ∀ k : ℕ, s.waiting[k]? = some .returned → s.finishing ≠ .store

section Steps

variable {s : SharedState} {order : Order} {k : ℕ}

theorem Orderly.coAwait (h : s.Orderly order) :
    Orderly { s with awaiting := s.awaiting ++ [.load] } order where
  sound := h.sound
  holds := h.holds
  nodup := h.nodup
  suspended k := (h.suspended k).trans (Pool.getElem?_concat_eq_some Awaiting.noConfusion).symm
  resumed k := (h.resumed k).trans (Pool.getElem?_concat_eq_some Awaiting.noConfusion).symm
  swapping k before hk := h.swapping k before
    ((Pool.getElem?_concat_eq_some Awaiting.noConfusion).mp hk)

theorem Holds.update (h : s.Holds order) (hk : k ∉ order.suspended) (p : Option ℕ) :
    Holds { s with next := Function.update s.next k p } order := by
  unfold Holds at h ⊢
  cases hf : s.finishing with
  | store | notify | exchange =>
    simp only [hf] at h ⊢
    obtain ⟨hres, head, hhead, hchain⟩ := h
    exact ⟨hres, head, hhead, hchain.update (mt List.mem_reverse.mp hk) p⟩
  | turn awaiters =>
    simp only [hf] at h ⊢
    obtain ⟨hres, hready, hchain⟩ := h
    exact ⟨hres, hready, hchain.update (mt List.mem_reverse.mp hk) p⟩
  | resume awaiters =>
    simp only [hf] at h ⊢
    obtain ⟨hready, rest, heq, hchain⟩ := h
    rw [heq, List.mem_append, not_or] at hk
    exact ⟨hready, rest, heq, hchain.update hk.2 p⟩
  | finished =>
    simp only [hf] at h ⊢
    exact h

theorem Orderly.notMem {a : Awaiting} (h : s.Orderly order) (hk : s.awaiting[k]? = some a)
    (hs : a ≠ .suspended) (hr : a ≠ .resumed) : k ∉ order.suspended := by
  intro hmem
  by_cases hres : k ∈ order.resumed
  · exact hr (Option.some.inj (hk.symm.trans ((h.resumed k).mp hres)))
  · exact hs (Option.some.inj (hk.symm.trans ((h.suspended k).mp ⟨hmem, hres⟩)))

theorem Orderly.set {a b : Awaiting} (h : s.Orderly order) (hk : s.awaiting[k]? = some a)
    (ha : a ≠ .suspended ∧ a ≠ .resumed) (hb : b ≠ .suspended ∧ b ≠ .resumed)
    (hswap : ∀ before, b = .swap before → s.next k = before) :
    Orderly { s with awaiting := s.awaiting.set k b } order where
  sound := h.sound
  holds := h.holds
  nodup := h.nodup
  suspended j := (h.suspended j).trans (Pool.getElem?_set_of_ne hk ha.1 hb.1).symm
  resumed j := (h.resumed j).trans (Pool.getElem?_set_of_ne hk ha.2 hb.2).symm
  swapping j before hj := by
    rcases (Pool.getElem?_set_eq_some hk).mp hj with ⟨rfl, hbefore⟩ | ⟨-, hj⟩
    · exact hswap before hbefore
    · exact h.swapping j before hj

theorem Orderly.load (h : s.Orderly order) (hk : s.awaiting[k]? = some .load)
    (before : Option ℕ) :
    Orderly { s with
      next := Function.update s.next k before
      awaiting := s.awaiting.set k (.swap before) } order := by
  have hmem := h.notMem hk Awaiting.noConfusion Awaiting.noConfusion
  have hupdate : Orderly { s with next := Function.update s.next k before } order :=
    { h with
      holds := h.holds.update hmem before
      swapping := fun j before' hj => by
        have hjk : j ≠ k := by
          rintro rfl
          cases hk.symm.trans hj
        exact (Function.update_of_ne hjk _ _).trans (h.swapping j before' hj) }
  refine hupdate.set hk ⟨Awaiting.noConfusion, Awaiting.noConfusion⟩
    ⟨Awaiting.noConfusion, Awaiting.noConfusion⟩ ?_
  rintro before' ⟨⟩
  exact Function.update_self k before s.next

theorem Holds.chain (h : s.Holds order) {head : Option ℕ} (hhead : s.awaiters = some head) :
    (s.finishing = .store ∨ s.finishing = .notify ∨ s.finishing = .exchange) ∧
      order.resumed = [] ∧ Chain s.next order.suspended.reverse head := by
  unfold Holds at h
  cases hf : s.finishing with
  | store | notify | exchange =>
    simp only [hf] at h
    obtain ⟨hres, head', hhead', hchain⟩ := h
    obtain rfl : head = head' := Option.some.inj (hhead.symm.trans hhead')
    exact ⟨by simp, hres, hchain⟩
  | turn awaiters =>
    simp only [hf] at h
    cases hhead.symm.trans h.2.1
  | resume awaiters | finished =>
    simp only [hf] at h
    cases hhead.symm.trans h.1

theorem Orderly.suspend {before : Option ℕ} (h : s.Orderly order)
    (hk : s.awaiting[k]? = some (.swap before)) (hhead : s.awaiters = some before) :
    Orderly { s with awaiters := some (some k), awaiting := s.awaiting.set k .suspended }
      { order with suspended := order.suspended ++ [k] } := by
  have hmem := h.notMem hk Awaiting.noConfusion Awaiting.noConfusion
  obtain ⟨hfinishing, hres, hchain⟩ := h.holds.chain hhead
  refine ⟨h.sound, ?_, ?_, fun j => ?_, fun j => ?_, fun j before' hj => ?_⟩
  · have hpush := hchain.push (h.swapping k before hk)
    rw [← List.reverse_concat] at hpush
    rcases hfinishing with hf | hf | hf <;>
    · simp only [Holds, hf]
      exact ⟨hres, some k, rfl, hpush⟩
  · exact List.nodup_append_comm.mp (List.nodup_cons.mpr ⟨hmem, h.nodup⟩)
  · rw [Pool.getElem?_set_eq_some hk, ← h.suspended j, hres]
    simp only [List.mem_append, List.mem_singleton, List.not_mem_nil, not_false_eq_true, and_true]
    constructor
    · rintro (hj | rfl)
      · exact .inr ⟨fun hjk => hmem (hjk ▸ hj), hj⟩
      · exact .inl rfl
    · rintro (rfl | ⟨-, hj⟩)
      · exact .inr rfl
      · exact .inl hj
  · exact (h.resumed j).trans
      (Pool.getElem?_set_of_ne hk Awaiting.noConfusion Awaiting.noConfusion).symm
  · rcases (Pool.getElem?_set_eq_some hk).mp hj with ⟨-, hbefore⟩ | ⟨-, hj⟩
    · cases hbefore
    · exact h.swapping j before' hj

theorem Orderly.stepAwait (h : s.Orderly order) (k : ℕ) (spurious : Bool) :
    (s.stepAwait k spurious).Orderly (order.note s (.await k spurious)) := by
  cases hk : s.awaiting[k]? with
  | none =>
    simp only [SharedState.stepAwait, Order.note, hk]
    exact h
  | some a =>
    cases a with
    | load =>
      simp only [SharedState.stepAwait, Order.note, hk]
      split
      · exact h.set hk ⟨Awaiting.noConfusion, Awaiting.noConfusion⟩
          ⟨Awaiting.noConfusion, Awaiting.noConfusion⟩ fun _ => Awaiting.noConfusion
      · exact h.load hk _
    | swap before =>
      simp only [SharedState.stepAwait, Order.note, hk]
      split
      · next hswap => exact h.suspend hk hswap.1
      · exact h.set hk ⟨Awaiting.noConfusion, Awaiting.noConfusion⟩
          ⟨Awaiting.noConfusion, Awaiting.noConfusion⟩ fun _ => Awaiting.noConfusion
    | suspended | passed | resumed =>
      simp only [SharedState.stepAwait, Order.note, hk]
      exact h

theorem Orderly.length_le (h : s.Orderly order) :
    order.suspended.length ≤ s.awaiting.length := by
  have hsub : order.suspended ⊆ List.range s.awaiting.length := by
    intro k hk
    rw [List.mem_range]
    by_contra hlt
    rw [Nat.not_lt, ← List.getElem?_eq_none_iff] at hlt
    by_cases hres : k ∈ order.resumed
    · cases hlt.symm.trans ((h.resumed k).mp hres)
    · cases hlt.symm.trans ((h.suspended k).mp ⟨hk, hres⟩)
  simpa using (List.subperm_of_subset h.nodup hsub).length_le

theorem Orderly.turn {awaiters : Option ℕ} (h : s.Orderly order)
    (hf : s.finishing = .turn awaiters) :
    ∃ next head, Linked.turn s.next s.awaiting.length awaiters none = some (next, head) ∧
      Orderly { s with next := next, finishing := .resume head } order := by
  have hholds := h.holds
  simp only [Holds, hf] at hholds
  obtain ⟨hres, hready, hchain⟩ := hholds
  have hnone : Chain s.next [] none := rfl
  obtain ⟨next, head, hturn, hchain', hkeep⟩ :=
    hchain.turn hnone (by simpa using h.nodup) (by simpa using h.length_le)
  refine ⟨next, head, hturn, { h with holds := ?_, swapping := fun k before hk => ?_ }⟩
  · refine ⟨hready, order.suspended, by rw [hres, List.nil_append], ?_⟩
    simpa using hchain'
  · have hmem := h.notMem hk Awaiting.noConfusion Awaiting.noConfusion
    exact (hkeep k (mt List.mem_reverse.mp hmem)).trans (h.swapping k before hk)

theorem Orderly.resume (h : s.Orderly order) (hf : s.finishing = .resume (some k)) :
    Orderly { s with
      awaiting := s.awaiting.set k .resumed
      finishing := .resume (s.next k)
      faulted := s.faulted || s.awaiting[k]? ≠ some .suspended }
      { order with resumed := order.resumed ++ [k] } := by
  have hholds := h.holds
  simp only [Holds, hf] at hholds
  obtain ⟨hready, rest, heq, hchain⟩ := hholds
  cases rest with
  | nil => cases hchain
  | cons i rest =>
    obtain ⟨hi, hchain⟩ := hchain
    obtain rfl : k = i := Option.some.inj hi
    have hnodup := h.nodup
    rw [heq, List.nodup_middle, List.nodup_cons, List.mem_append, not_or] at hnodup
    have hmem : k ∈ order.suspended := by
      rw [heq]
      exact List.mem_append_right _ List.mem_cons_self
    have hk : s.awaiting[k]? = some .suspended := (h.suspended k).mp ⟨hmem, hnodup.1.1⟩
    refine ⟨by simp [h.sound, hk], ?_, h.nodup, fun j => ?_, fun j => ?_, fun j before hj => ?_⟩
    · exact ⟨hready, rest, by rw [heq, List.append_assoc, List.singleton_append], hchain⟩
    · rw [Pool.getElem?_set_eq_some hk, ← h.suspended j, List.mem_append, List.mem_singleton,
        not_or]
      constructor
      · rintro ⟨hj, hres, hjk⟩
        exact .inr ⟨hjk, hj, hres⟩
      · rintro (⟨-, hne⟩ | ⟨hjk, hj, hres⟩)
        · cases hne
        · exact ⟨hj, hres, hjk⟩
    · rw [Pool.getElem?_set_eq_some hk, ← h.resumed j, List.mem_append, List.mem_singleton]
      constructor
      · rintro (hj | rfl)
        · exact .inr ⟨fun hjk => hnodup.1.1 (hjk ▸ hj), hj⟩
        · exact .inl ⟨rfl, rfl⟩
      · rintro (⟨rfl, -⟩ | ⟨-, hj⟩)
        · exact .inr rfl
        · exact .inl hj
    · rcases (Pool.getElem?_set_eq_some hk).mp hj with ⟨-, hbefore⟩ | ⟨-, hj⟩
      · cases hbefore
      · exact h.swapping j before hj

theorem Orderly.stepFinish (h : s.Orderly order) (status : ResultStatus) :
    (s.stepFinish status).Orderly (order.note s .finish) := by
  have hholds := h.holds
  cases hf : s.finishing with
  | store | notify =>
    simp only [SharedState.stepFinish, Order.note, hf]
    simp only [Holds, hf] at hholds
    exact { h with holds := hholds }
  | exchange =>
    simp only [Holds, hf] at hholds
    obtain ⟨hres, head, hhead, hchain⟩ := hholds
    simp only [SharedState.stepFinish, Order.note, hf, hhead]
    exact { h with holds := ⟨hres, rfl, hchain⟩ }
  | turn awaiters =>
    obtain ⟨next, head, hturn, hnext⟩ := h.turn hf
    simp only [SharedState.stepFinish, Order.note, hf, hturn]
    exact hnext
  | resume awaiters =>
    cases awaiters with
    | none =>
      simp only [SharedState.stepFinish, Order.note, hf]
      simp only [Holds, hf] at hholds
      obtain ⟨hready, rest, heq, hchain⟩ := hholds
      cases rest with
      | nil => exact { h with holds := ⟨hready, by rw [heq, List.append_nil]⟩ }
      | cons i rest => cases hchain.1
    | some k =>
      simp only [SharedState.stepFinish, Order.note, hf]
      exact h.resume hf
  | finished =>
    simp only [SharedState.stepFinish, Order.note, hf]
    exact h

theorem Orderly.step {status : ResultStatus} (h : s.Orderly order) (op : SharedOp) :
    ((sharing status).step s op).1.Orderly (order.note s op) := by
  cases op with
  | coAwait => exact h.coAwait
  | await k spurious => exact h.stepAwait k spurious
  | wait => exact { h with holds := h.holds }
  | waits k spurious =>
    simp only [sharing, SharedState.stepWait]
    split <;> exact { h with holds := h.holds }
  | finish => exact h.stepFinish status

section Told

variable {status : ResultStatus}

theorem Told.stepAwait (h : s.Told status) (k : ℕ) (spurious : Bool) :
    (s.stepAwait k spurious).Told status := by
  unfold SharedState.stepAwait
  split
  · next hk =>
    split
    · next hready => exact { h with passed := fun j _ => hready }
    · exact { h with
        passed := fun j hj => h.passed j
          ((Pool.getElem?_set_of_ne hk Awaiting.noConfusion Awaiting.noConfusion).mp hj) }
  · next hk =>
    split
    · next hswap =>
      refine { h with passed := fun j hj => ?_ }
      have hready := h.passed j
        ((Pool.getElem?_set_of_ne hk Awaiting.noConfusion Awaiting.noConfusion).mp hj)
      cases hready.symm.trans hswap.1
    · exact { h with
        passed := fun j hj => h.passed j
          ((Pool.getElem?_set_of_ne hk Awaiting.noConfusion Awaiting.noConfusion).mp hj) }
  all_goals exact h

/-- A thread finds the status idle exactly as long as it has not been stored. -/
theorem Told.idle_iff (h : s.Told status) (hstatus : status ≠ .idle) :
    s.status = .idle ↔ s.finishing = .store := by
  rw [h.status_eq]
  split
  · next hf => exact iff_of_true rfl hf
  · next hf => exact iff_of_false hstatus hf

theorem Told.setWaiting {w w' : Waiting} (h : s.Told status) (hk : s.waiting[k]? = some w)
    (hblocked : w' = .blocked → s.finishing = .store ∨ s.finishing = .notify)
    (hreturned : w' = .returned → s.finishing ≠ .store) :
    Told status { s with waiting := s.waiting.set k w' } := by
  refine { h with blocked := fun j hj => ?_, returned := fun j hj => ?_ }
  · rcases (Pool.getElem?_set_eq_some hk).mp hj with ⟨-, hw⟩ | ⟨-, hj⟩
    · exact hblocked hw
    · exact h.blocked j hj
  · rcases (Pool.getElem?_set_eq_some hk).mp hj with ⟨-, hw⟩ | ⟨-, hj⟩
    · exact hreturned hw
    · exact h.returned j hj

theorem Told.stepWait (h : s.Told status) (hstatus : status ≠ .idle) (k : ℕ) (spurious : Bool) :
    (s.stepWait k spurious).Told status := by
  have hidle := h.idle_iff hstatus
  unfold SharedState.stepWait
  split
  · next hk =>
    split
    · exact h.setWaiting hk Waiting.noConfusion Waiting.noConfusion
    · next hne => exact h.setWaiting hk Waiting.noConfusion fun _ => mt hidle.mpr hne
  · next hk =>
    split
    · next heq => exact h.setWaiting hk (fun _ => .inl (hidle.mp heq)) Waiting.noConfusion
    · exact h.setWaiting hk Waiting.noConfusion Waiting.noConfusion
  · next hk =>
    split
    · exact h.setWaiting hk Waiting.noConfusion Waiting.noConfusion
    · exact h.setWaiting hk (fun _ => h.blocked k hk) Waiting.noConfusion
  all_goals exact h

theorem notifyAll_ne_blocked (k : ℕ) : s.notifyAll[k]? ≠ some .blocked := by
  rw [notifyAll, List.getElem?_map]
  cases s.waiting[k]? with
  | none => exact nofun
  | some w => cases w <;> decide

theorem Told.advance {s' : SharedState} (h : s.Told status)
    (hs : s.finishing ≠ .store ∧ s.finishing ≠ .notify) (hstatus : s'.status = s.status)
    (hwaiting : s'.waiting = s.waiting) (hs' : s'.finishing ≠ .store)
    (hpassed : ∀ k : ℕ, s'.awaiting[k]? = some .passed → s'.awaiters = none) : s'.Told status where
  status_eq := by rw [hstatus, h.status_eq, if_neg hs.1, if_neg hs']
  passed := hpassed
  blocked k hk := ((h.blocked k (hwaiting ▸ hk)).elim hs.1 hs.2).elim
  returned _ _ := hs'

theorem Told.stepFinish (h : s.Told status) : (s.stepFinish status).Told status := by
  cases hf : s.finishing with
  | store =>
    simp only [SharedState.stepFinish, hf]
    exact ⟨rfl, h.passed, fun _ _ => .inr rfl, fun _ _ => Finishing.noConfusion⟩
  | notify =>
    simp only [SharedState.stepFinish, hf]
    refine ⟨?_, h.passed, fun k hk => (notifyAll_ne_blocked k hk).elim,
      fun _ _ => Finishing.noConfusion⟩
    rw [h.status_eq, hf]
    rfl
  | exchange =>
    simp only [SharedState.stepFinish, hf]
    split
    · exact h.advance (by simp [hf]) rfl rfl Finishing.noConfusion fun _ _ => rfl
    · exact h.advance (by simp [hf]) rfl rfl Finishing.noConfusion h.passed
  | turn awaiters =>
    simp only [SharedState.stepFinish, hf]
    split <;> exact h.advance (by simp [hf]) rfl rfl Finishing.noConfusion h.passed
  | resume awaiters =>
    cases awaiters with
    | none =>
      simp only [SharedState.stepFinish, hf]
      exact h.advance (by simp [hf]) rfl rfl Finishing.noConfusion h.passed
    | some k =>
      simp only [SharedState.stepFinish, hf]
      exact h.advance (by simp [hf]) rfl rfl Finishing.noConfusion
        fun j hj => h.passed j (Pool.getElem?_of_set hj Awaiting.noConfusion)
  | finished =>
    simp only [SharedState.stepFinish, hf]
    exact h

theorem Told.step (h : s.Told status) (hstatus : status ≠ .idle) (op : SharedOp) :
    ((sharing status).step s op).1.Told status := by
  cases op with
  | coAwait =>
    exact { h with
      passed := fun k hk => h.passed k
        ((Pool.getElem?_concat_eq_some Awaiting.noConfusion).mp hk) }
  | await k spurious => exact h.stepAwait k spurious
  | wait =>
    exact { h with
      blocked := fun k hk => h.blocked k
        ((Pool.getElem?_concat_eq_some Waiting.noConfusion).mp hk)
      returned := fun k hk => h.returned k
        ((Pool.getElem?_concat_eq_some Waiting.noConfusion).mp hk) }
  | waits k spurious => exact h.stepWait hstatus k spurious
  | finish => exact h.stepFinish

end Told

end Steps

section Reached

variable {s : SharedState} {order : Order} {status : ResultStatus}

theorem Holds.resumed_prefix (h : s.Holds order) : order.resumed <+: order.suspended := by
  unfold Holds at h
  cases hf : s.finishing with
  | store | notify | exchange | turn awaiters =>
    simp only [hf] at h
    rw [h.1]
    exact List.nil_prefix
  | resume awaiters =>
    simp only [hf] at h
    obtain ⟨-, rest, heq, -⟩ := h
    exact ⟨rest, heq.symm⟩
  | finished =>
    simp only [hf] at h
    exact ⟨[], by rw [List.append_nil, h.2]⟩

theorem Holds.stored (h : s.Holds order) (hne : order.resumed ≠ [] ∨ s.awaiters = none) :
    s.finishing ≠ .store := by
  intro hf
  simp only [Holds, hf] at h
  obtain ⟨hres, head, hhead, -⟩ := h
  rcases hne with hne | hready
  · exact hne hres
  · cases hready.symm.trans hhead

theorem Orderly.not_suspended (h : s.Orderly order) (hf : s.finishing = .finished) :
    .suspended ∉ s.awaiting := by
  intro hmem
  obtain ⟨k, hk⟩ := List.mem_iff_getElem?.mp hmem
  obtain ⟨hin, hout⟩ := (h.suspended k).mpr hk
  have hholds := h.holds
  simp only [Holds, hf] at hholds
  exact hout (hholds.2 ▸ hin)

theorem Told.not_blocked (h : s.Told status) (hf : s.finishing = .finished) :
    .blocked ∉ s.waiting := by
  intro hmem
  obtain ⟨k, hk⟩ := List.mem_iff_getElem?.mp hmem
  rcases h.blocked k hk with hf' | hf' <;> cases hf.symm.trans hf'

/-- Who has gone on has done so behind the store. -/
theorem Told.stored (h : s.Told status) (horder : s.Orderly order)
    (hs : .passed ∈ s.awaiting ∨ .resumed ∈ s.awaiting ∨ .returned ∈ s.waiting) :
    s.finishing ≠ .store := by
  rcases hs with hmem | hmem | hmem <;> obtain ⟨k, hk⟩ := List.mem_iff_getElem?.mp hmem
  · exact horder.holds.stored (.inr (h.passed k hk))
  · exact horder.holds.stored (.inl (List.ne_nil_of_mem ((horder.resumed k).mpr hk)))
  · exact h.returned k hk

end Reached

theorem orderly_new : new.Orderly ⟨[], []⟩ :=
  ⟨rfl, ⟨rfl, none, rfl, rfl⟩, List.nodup_nil, fun _ => by simp [new], fun _ => by simp [new],
    fun _ _ h => by simp [new] at h⟩

theorem told_new (status : ResultStatus) : new.Told status :=
  ⟨rfl, fun _ h => by simp [new] at h, fun _ h => by simp [new] at h,
    fun _ h => by simp [new] at h⟩

end SharedState

/-- Coroutines that await a shared result are resumed once each and in the order in which they
were suspended, all of them by the time the result is finished; then no thread waits either. A
coroutine that has gone on, or a thread that has returned, finds the status of the result. -/
theorem shared_resumed_in_order (status : ResultStatus) (hstatus : status ≠ .idle)
    (ops : List SharedOp) :
    let r := (((sharing status).noting Order.note).run (.new, ⟨[], []⟩) ops).1
    r.1.faulted = false ∧ r.2.suspended.Nodup ∧ r.2.resumed <+: r.2.suspended ∧
      (r.1.finishing = .finished →
        r.2.resumed = r.2.suspended ∧ .suspended ∉ r.1.awaiting ∧ .blocked ∉ r.1.waiting) ∧
      (.passed ∈ r.1.awaiting ∨ .resumed ∈ r.1.awaiting ∨ .returned ∈ r.1.waiting →
        r.1.status = status) := by
  intro r
  obtain ⟨horder, htold⟩ : r.1.Orderly r.2 ∧ r.1.Told status :=
    ((sharing status).noting Order.note).run_keeps
      (P := fun r => r.1.Orderly r.2 ∧ r.1.Told status)
      (fun r op h => ⟨h.1.step op, h.2.step hstatus op⟩)
      ⟨SharedState.orderly_new, SharedState.told_new status⟩ ops
  refine ⟨horder.sound, horder.nodup, horder.holds.resumed_prefix, fun hf => ?_, fun hs => ?_⟩
  · have hholds := horder.holds
    simp only [SharedState.Holds, hf] at hholds
    exact ⟨hholds.2.symm, horder.not_suspended hf, htold.not_blocked hf⟩
  · rw [htold.status_eq, if_neg (htold.stored horder hs)]

/-- Two coroutines come while the result is not there and a third one after it. -/
theorem shared_resumed_in_order_three :
    let ops : List SharedOp := [.coAwait, .coAwait, .await 1 false, .await 0 false, .await 1 false,
      .await 0 false, .await 0 false, .await 0 false, .finish, .finish, .finish, .coAwait,
      .await 2 false, .finish, .finish, .finish, .finish]
    let r := (((sharing .value).noting Order.note).run (.new, ⟨[], []⟩) ops).1
    r.2.suspended = [1, 0] ∧ r.1.finishing = .finished ∧ r.2.resumed = r.2.suspended ∧
      r.1.status = .value := by
  intro ops r
  have h := shared_resumed_in_order .value ResultStatus.noConfusion ops
  exact ⟨by decide, by decide, (h.2.2.2.1 (by decide)).1, h.2.2.2.2 (.inl (by decide))⟩

end Plain.Concurrency
