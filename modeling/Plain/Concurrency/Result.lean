import Plain.Concurrency.State
import Plain.Foundation.Machine

/-! # A result between its producer and its consumer

The consumer holds a `Result` and calls its members, the producer sets the outcome at any time.
Each of them touches the state in steps of one atomic access, and the steps interleave
arbitrarily. Nothing is deleted under the other's hands, nobody waits for ever, and the
consumer gets what the producer has set.
-/

namespace Plain.Concurrency

inductive Call where
  | status
  | wait
  | waitFor
  | get
  | coAwait
  | resolve
  | destroy
  deriving DecidableEq, Repr

/-- What the consumer does next. Between two calls it `holds` the result; `gone` is an empty
result, with the outcome it was emptied for. -/
inductive Consumer (ε τ : Type*) where
  | holds
  | statusLoad
  | statusRead
  | waitLoad (get : Bool)
  | waitExchange (get : Bool)
  | waitTest (get : Bool)
  | waitNative (get : Bool)
  | waitBlocked (get : Bool)
  | forLoad
  | forExchange
  | forTest
  | forExpired
  | forNative
  | forBlocked
  | forRewind
  | forRead
  | awaitLoad (resolve : Bool)
  | awaitSet (resolve : Bool)
  | awaitExchange (resolve : Bool)
  | suspended (resolve : Bool)
  | getRead
  | getDelete (outcome : Outcome ε τ)
  | destroy
  | delete
  | gone (outcome : Option (Outcome ε τ))
  deriving DecidableEq, Repr

namespace Consumer

variable {ε τ : Type*}

def start : Call → Consumer ε τ
  | .status => .statusLoad
  | .wait => .waitLoad false
  | .waitFor => .forLoad
  | .get => .waitLoad true
  | .coAwait => .awaitLoad false
  | .resolve => .awaitLoad true
  | .destroy => .destroy

def waited (get : Bool) : Consumer ε τ := if get then .getRead else .holds

/-- `await_resume`: `resolve()` gives the result back, `co_await` takes the outcome. -/
def resumed (resolve : Bool) : Consumer ε τ := if resolve then .holds else .getRead

def woken : Consumer ε τ → Consumer ε τ
  | .waitBlocked get => .waitTest get
  | .forBlocked => .forTest
  | c => c

end Consumer

structure Exchange (ε τ : Type*) extends Memory ε τ where
  producing : Producer
  consuming : Consumer ε τ
  deriving DecidableEq

/-- One step of the producer, which has the outcome at hand; a new call of the consumer; its next
step, at a time before or after its deadline; a wake-up for no reason. -/
inductive ExchangeOp (ε τ : Type*) where
  | produce (outcome : Outcome ε τ)
  | call (call : Call)
  | consume (expired : Bool)
  | wake
  deriving DecidableEq, Repr

def ExchangeOp.outcome {ε τ : Type*} : ExchangeOp ε τ → Option (Outcome ε τ)
  | .produce outcome => some outcome
  | .call _ | .consume _ | .wake => none

namespace Exchange

variable {ε τ : Type*}

def new : Exchange ε τ := ⟨.new, .build, .holds⟩

/-- The next step of the producer. The wake-up of a waiting thread only uses the address of the
status. -/
def stepProducer (x : Exchange ε τ) (outcome : Outcome ε τ) : Exchange ε τ :=
  match x.producing with
  | .build => ⟨x.build outcome, .exchange, x.consuming⟩
  | .exchange => ⟨x.completeProducer, .next x.state.processStatus, x.consuming⟩
  | .resume =>
      match x.state.consumer, x.consuming with
      | .await, .suspended resolve => ⟨x.access true, .finished, .resumed resolve⟩
      | .await, consuming => ⟨x.access false, .finished, consuming⟩
      | .idle, consuming | .whenAny, consuming | .shared, consuming =>
          ⟨x.access true, .finished, consuming⟩
  | .notify => ⟨x.toMemory, .finished, x.consuming.woken⟩
  | .delete => ⟨x.toMemory.delete, .finished, x.consuming⟩
  | .finished => x

variable (x : Exchange ε τ)

def goto (consuming : Consumer ε τ) : Exchange ε τ × Option ResultStatus :=
  (⟨x.access true, x.producing, consuming⟩, none)

def gotoDone (consuming : Consumer ε τ) : Exchange ε τ × Option ResultStatus :=
  (⟨x.assertDone, x.producing, consuming⟩, none)

def answer (status : ResultStatus) : Exchange ε τ × Option ResultStatus :=
  (⟨x.access true, x.producing, .holds⟩, some status)

/-- The consumer exchanges the status it expects and goes to its next step. -/
def swap (status : ProcessStatus) (consuming : Consumer ε τ) :
    Exchange ε τ × Option ResultStatus :=
  (⟨(x.access true).setStatus status, x.producing, consuming⟩, none)

def stepConsumer (expired : Bool) : Exchange ε τ × Option ResultStatus :=
  match x.consuming with
  | .holds => (x, none)
  | .statusLoad =>
      if x.state.processStatus = .idle then x.answer .idle
      else (⟨x.access (x.state.processStatus ≠ .consumerSet), x.producing, .statusRead⟩, none)
  | .statusRead => x.answer (resultStatus x.state.producer)
  | .waitLoad get =>
      if x.state.processStatus = .producerDone then x.goto (.waited get)
      else x.goto (.waitExchange get)
  | .waitExchange get =>
      if x.state.processStatus = .idle then x.swap .consumerWaiting (.waitTest get)
      else x.gotoDone (.waited get)
  | .waitTest get =>
      if x.state.processStatus = .consumerWaiting then x.goto (.waitNative get)
      else x.gotoDone (.waited get)
  | .waitNative get =>
      -- the thread sleeps only on the status that it expects
      if x.state.processStatus = .consumerWaiting then x.goto (.waitBlocked get)
      else x.goto (.waitTest get)
  | .waitBlocked _ => (x, none)
  | .forLoad =>
      if x.state.processStatus = .producerDone then x.goto .forRead else x.goto .forExchange
  | .forExchange =>
      if x.state.processStatus = .idle then x.swap .consumerWaiting .forTest
      else x.gotoDone .forRead
  | .forTest =>
      if x.state.processStatus = .consumerWaiting then
        x.goto (if expired then .forExpired else .forNative)
      else x.gotoDone .forRead
  | .forExpired =>
      if x.state.processStatus = .consumerWaiting then x.goto .forRewind
      else x.gotoDone .forRead
  | .forNative =>
      if x.state.processStatus = .consumerWaiting then x.goto .forBlocked else x.goto .forTest
  | .forBlocked => (if expired then ⟨x.toMemory, x.producing, .forTest⟩ else x, none)
  | .forRewind =>
      if x.state.processStatus = .consumerWaiting then
        (⟨(x.access true).setStatus .idle, x.producing, .holds⟩, some .idle)
      else x.gotoDone .forRead
  | .forRead => x.answer (resultStatus x.state.producer)
  | .awaitLoad resolve =>
      if x.state.processStatus = .producerDone then x.goto (.resumed resolve)
      else x.goto (.awaitSet resolve)
  | .awaitSet resolve => (⟨x.setConsumer .await, x.producing, .awaitExchange resolve⟩, none)
  | .awaitExchange resolve =>
      if x.state.processStatus = .idle then x.swap .consumerSet (.suspended resolve)
      else x.gotoDone (.resumed resolve)
  | .suspended _ => (x, none)
  | .getRead =>
      match x.state.producer with
      | some outcome => x.gotoDone (.getDelete outcome)
      | none => (⟨x.access false, x.producing, .holds⟩, none)
  | .getDelete outcome => (⟨x.assertDone.delete, x.producing, .gone (some outcome)⟩, none)
  | .destroy =>
      let m := x.access (x.state.processStatus = .idle ∨ x.state.processStatus = .producerDone)
      let next := if x.state.processStatus = .producerDone then .delete else .gone none
      (⟨m.setStatus .consumerDone, x.producing, next⟩, none)
  | .delete => (⟨x.toMemory.delete, x.producing, .gone none⟩, none)
  | .gone _ => (x, none)

end Exchange

/-- A result under any interleaving of its producer and its consumer. -/
def exchange (ε τ : Type*) : Machine (Exchange ε τ) (ExchangeOp ε τ) (Option ResultStatus) where
  step x
    | .produce outcome => (x.stepProducer outcome, none)
    | .call call =>
        match x.consuming with
        | .holds => ({ x with consuming := .start call }, none)
        | _ => (x, none)
    | .consume expired => x.stepConsumer expired
    | .wake => ({ x with consuming := x.consuming.woken }, none)

namespace Consumer

variable {ε τ : Type*}

def mark : Consumer ε τ → ProcessStatus
  | .waitTest _ | .waitNative _ | .waitBlocked _ | .forTest | .forExpired | .forNative
  | .forBlocked | .forRewind => .consumerWaiting
  | .suspended _ => .consumerSet
  | .gone _ => .consumerDone
  | _ => .idle

def context : Consumer ε τ → ConsumerStatus
  | .awaitExchange _ | .suspended _ => .await
  | _ => .idle

def Relies : Consumer ε τ → Prop
  | .statusRead | .forRead | .getRead | .getDelete _ | .delete | .gone (some _) => True
  | _ => False

def Waits : Consumer ε τ → Prop
  | .waitBlocked _ | .forBlocked | .suspended _ => True
  | _ => False

/-- Where the consumer may be when the outcome is published and the state is in use. -/
def Runs (outcome : Outcome ε τ) (context : ConsumerStatus) (producing : Producer) :
    Consumer ε τ → Prop
  | .waitBlocked _ | .forBlocked => producing = .notify
  | .awaitSet _ => context = .idle
  | .getDelete o => o = outcome
  | .suspended _ | .delete | .gone _ => False
  | _ => True

end Consumer

namespace Exchange

variable {ε τ : Type*}

/-- The states that a result comes to. -/
inductive Reached : Exchange ε τ → Prop where
  | working {pc : Producer} {pr : Option (Outcome ε τ)} {c : Consumer ε τ}
      (hp : pc = .build ∧ pr = none ∨ pc = .exchange ∧ ∃ o, pr = some o) (hc : ¬ c.Relies) :
      Reached ⟨⟨⟨c.mark, c.context, pr⟩, false, false⟩, pc, c⟩
  | handed (o : Outcome ε τ) (resolve : Bool) :
      Reached ⟨⟨⟨.producerDone, .await, some o⟩, false, false⟩, .resume, .suspended resolve⟩
  | done {pc : Producer} {o : Outcome ε τ} {c : Consumer ε τ} (ctx : ConsumerStatus)
      (hp : pc = .notify ∨ pc = .finished) (hc : c.Runs o ctx pc) :
      Reached ⟨⟨⟨.producerDone, ctx, some o⟩, false, false⟩, pc, c⟩
  | leaving {pc : Producer} (o : Outcome ε τ) (ctx : ConsumerStatus)
      (hp : pc = .notify ∨ pc = .finished) :
      Reached ⟨⟨⟨.consumerDone, ctx, some o⟩, false, false⟩, pc, .delete⟩
  | left (o : Outcome ε τ) (ctx : ConsumerStatus) :
      Reached ⟨⟨⟨.producerDone, ctx, some o⟩, false, false⟩, .delete, .gone none⟩
  | ended {pc : Producer} {o : Outcome ε τ} {r : Option (Outcome ε τ)} (st : ProcessStatus)
      (ctx : ConsumerStatus) (hp : pc = .notify ∨ pc = .finished) (hr : r = none ∨ r = some o) :
      Reached ⟨⟨⟨st, ctx, some o⟩, true, false⟩, pc, .gone r⟩

theorem reached_new : (new : Exchange ε τ).Reached :=
  .working (c := .holds) (.inl ⟨rfl, rfl⟩) id

section Steps

variable {pc : Producer} {pr : Option (Outcome ε τ)} {c : Consumer ε τ} {o : Outcome ε τ}
  {ctx : ConsumerStatus} {x : Exchange ε τ}

theorem stepConsumer_working (hc : ¬ c.Relies) (expired : Bool) :
    ∃ c' : Consumer ε τ, ¬ c'.Relies ∧
      (stepConsumer ⟨⟨⟨c.mark, c.context, pr⟩, false, false⟩, pc, c⟩ expired).1 =
        ⟨⟨⟨c'.mark, c'.context, pr⟩, false, false⟩, pc, c'⟩ := by
  cases c with
  | statusRead | forRead | getRead | getDelete | delete => exact absurd trivial hc
  | holds => exact ⟨.holds, id, rfl⟩
  | statusLoad => exact ⟨.holds, id, rfl⟩
  | waitLoad get => exact ⟨.waitExchange get, id, rfl⟩
  | waitExchange get => exact ⟨.waitTest get, id, rfl⟩
  | waitTest get => exact ⟨.waitNative get, id, rfl⟩
  | waitNative get => exact ⟨.waitBlocked get, id, rfl⟩
  | waitBlocked get => exact ⟨.waitBlocked get, id, rfl⟩
  | forLoad => exact ⟨.forExchange, id, rfl⟩
  | forExchange => exact ⟨.forTest, id, rfl⟩
  | forTest =>
    cases expired with
    | false => exact ⟨.forNative, id, rfl⟩
    | true => exact ⟨.forExpired, id, rfl⟩
  | forExpired => exact ⟨.forRewind, id, rfl⟩
  | forNative => exact ⟨.forBlocked, id, rfl⟩
  | forBlocked =>
    cases expired with
    | false => exact ⟨.forBlocked, id, rfl⟩
    | true => exact ⟨.forTest, id, rfl⟩
  | forRewind => exact ⟨.holds, id, rfl⟩
  | awaitLoad resolve => exact ⟨.awaitSet resolve, id, rfl⟩
  | awaitSet resolve => exact ⟨.awaitExchange resolve, id, rfl⟩
  | awaitExchange resolve => exact ⟨.suspended resolve, id, rfl⟩
  | suspended resolve => exact ⟨.suspended resolve, id, rfl⟩
  | destroy => exact ⟨.gone none, id, rfl⟩
  | gone r => exact ⟨.gone r, hc, rfl⟩

theorem runs_waited (get : Bool) : (Consumer.waited get : Consumer ε τ).Runs o ctx pc := by
  cases get <;> trivial

theorem runs_resumed (resolve : Bool) :
    (Consumer.resumed resolve : Consumer ε τ).Runs o ctx pc := by
  cases resolve <;> trivial

theorem Reached.stepConsumer_done (hp : pc = .notify ∨ pc = .finished)
    (hc : c.Runs o ctx pc) (expired : Bool) :
    (stepConsumer ⟨⟨⟨.producerDone, ctx, some o⟩, false, false⟩, pc, c⟩ expired).1.Reached := by
  cases c with
  | suspended | delete | gone => exact hc.elim
  | holds => exact .done ctx hp trivial
  | statusLoad => exact .done (c := .statusRead) ctx hp trivial
  | statusRead => exact .done (c := .holds) ctx hp trivial
  | waitLoad get => exact .done ctx hp (runs_waited get)
  | waitExchange get => exact .done ctx hp (runs_waited get)
  | waitTest get => exact .done ctx hp (runs_waited get)
  | waitNative get => exact .done (c := .waitTest get) ctx hp trivial
  | waitBlocked get => exact .done ctx hp hc
  | forLoad => exact .done (c := .forRead) ctx hp trivial
  | forExchange => exact .done (c := .forRead) ctx hp trivial
  | forTest => exact .done (c := .forRead) ctx hp trivial
  | forExpired => exact .done (c := .forRead) ctx hp trivial
  | forNative => exact .done (c := .forTest) ctx hp trivial
  | forBlocked =>
    cases expired with
    | false => exact .done ctx hp hc
    | true => exact .done (c := .forTest) ctx hp trivial
  | forRewind => exact .done (c := .forRead) ctx hp trivial
  | forRead => exact .done (c := .holds) ctx hp trivial
  | awaitLoad resolve => exact .done ctx hp (runs_resumed resolve)
  | awaitSet resolve =>
    obtain rfl : ctx = .idle := hc
    exact .done (c := .awaitExchange resolve) .await hp trivial
  | awaitExchange resolve => exact .done ctx hp (runs_resumed resolve)
  | getRead => exact .done (c := .getDelete o) ctx hp rfl
  | getDelete o' => exact .ended _ ctx hp (.inr (congrArg some hc))
  | destroy => exact .leaving o ctx hp

theorem Reached.stepConsumer (h : x.Reached) (expired : Bool) :
    (x.stepConsumer expired).1.Reached := by
  cases h with
  | working hp hc =>
    obtain ⟨c', hc', heq⟩ := stepConsumer_working hc expired
    rw [heq]
    exact .working hp hc'
  | handed o resolve => exact .handed o resolve
  | done ctx hp hc => exact .stepConsumer_done hp hc expired
  | leaving o ctx hp => exact .ended _ ctx hp (.inl rfl)
  | left o ctx => exact .left o ctx
  | ended st ctx hp hr => exact .ended st ctx hp hr

/-- The exchange of the producer, by what the consumer has left. -/
theorem Reached.completeProducer (hc : ¬ c.Relies) :
    Reached ⟨Memory.completeProducer ⟨⟨c.mark, c.context, some o⟩, false, false⟩,
      .next c.mark, c⟩ := by
  cases c with
  | statusRead | forRead | getRead | getDelete | delete => exact absurd trivial hc
  | waitTest | waitNative | forTest | forExpired | forNative | forRewind =>
    exact .done _ (.inl rfl) trivial
  | waitBlocked | forBlocked => exact .done _ (.inl rfl) rfl
  | suspended resolve => exact .handed o resolve
  | gone r =>
    cases r with
    | none => exact .left o _
    | some o' => exact absurd trivial hc
  | awaitSet => exact .done _ (.inr rfl) rfl
  | holds | statusLoad | waitLoad | waitExchange | forLoad | forExchange | awaitLoad
  | awaitExchange | destroy => exact .done _ (.inr rfl) trivial

theorem runs_woken {pc' : Producer} (hc : c.Runs o ctx pc) : c.woken.Runs o ctx pc' := by
  cases c with
  | suspended | delete | gone => exact hc.elim
  | awaitSet | getDelete => exact hc
  | _ => trivial

theorem Reached.stepProducer (h : x.Reached) (o : Outcome ε τ) :
    (x.stepProducer o).Reached := by
  cases h with
  | working hp hc =>
    rcases hp with ⟨rfl, rfl⟩ | ⟨rfl, o', rfl⟩
    · exact .working (.inr ⟨rfl, o, rfl⟩) hc
    · exact .completeProducer hc
  | handed o' resolve => exact .done .await (.inr rfl) (runs_resumed resolve)
  | done ctx hp hc =>
    rcases hp with rfl | rfl
    · exact .done ctx (.inr rfl) (runs_woken hc)
    · exact .done ctx (.inr rfl) hc
  | leaving o' ctx hp =>
    rcases hp with rfl | rfl
    · exact .leaving o' ctx (.inr rfl)
    · exact .leaving o' ctx (.inr rfl)
  | left o' ctx => exact .ended _ ctx (.inr rfl) (.inl rfl)
  | ended st ctx hp hr =>
    rcases hp with rfl | rfl
    · exact .ended st ctx (.inr rfl) hr
    · exact .ended st ctx (.inr rfl) hr

theorem woken_working (c : Consumer ε τ) :
    c.woken.mark = c.mark ∧ c.woken.context = c.context ∧ (c.woken.Relies ↔ c.Relies) := by
  cases c <;> exact ⟨rfl, rfl, Iff.rfl⟩

theorem Reached.wake (h : x.Reached) : Reached { x with consuming := x.consuming.woken } := by
  cases h with
  | @working pc pr c hp hc =>
    obtain ⟨hmark, hcontext, hrelies⟩ := woken_working c
    have h := Reached.working hp (mt hrelies.mp hc)
    rwa [hmark, hcontext] at h
  | handed o resolve => exact .handed o resolve
  | done ctx hp hc => exact .done ctx hp (runs_woken hc)
  | leaving o ctx hp => exact .leaving o ctx hp
  | left o ctx => exact .left o ctx
  | ended st ctx hp hr => exact .ended st ctx hp hr

theorem start_working (call : Call) : (Consumer.start call : Consumer ε τ).mark = .idle ∧
    (Consumer.start call : Consumer ε τ).context = .idle ∧
    ¬ (Consumer.start call : Consumer ε τ).Relies := by
  cases call <;> exact ⟨rfl, rfl, id⟩

theorem Reached.start (h : x.Reached) (hc : x.consuming = .holds) (call : Call) :
    Reached { x with consuming := .start call } := by
  cases h with
  | working hp _ =>
    subst hc
    obtain ⟨hmark, hcontext, hrelies⟩ := start_working (ε := ε) (τ := τ) call
    have h := Reached.working hp hrelies
    rw [hmark, hcontext] at h
    exact h
  | handed => cases hc
  | done ctx hp _ => cases call <;> exact .done ctx hp trivial
  | leaving => cases hc
  | left => cases hc
  | ended => cases hc

theorem Reached.step (h : x.Reached) (op : ExchangeOp ε τ) :
    ((exchange ε τ).step x op).1.Reached := by
  cases op with
  | produce o => exact h.stepProducer o
  | call call =>
    simp only [exchange]
    split
    · next hc => exact h.start hc call
    · exact h
  | consume expired => exact h.stepConsumer expired
  | wake => exact h.wake

theorem stepConsumer_outcome (x : Exchange ε τ) (expired : Bool) :
    (x.stepConsumer expired).1.state.producer = x.state.producer := by
  unfold stepConsumer
  split <;> (try split) <;> rfl

theorem Reached.stepProducer_outcome (h : x.Reached) (o : Outcome ε τ) :
    (x.stepProducer o).state.producer = x.state.producer.or (some o) := by
  cases h with
  | working hp hc => rcases hp with ⟨rfl, rfl⟩ | ⟨rfl, o', rfl⟩ <;> rfl
  | handed | left => rfl
  | done ctx hp | leaving o' ctx hp | ended st ctx hp => rcases hp with rfl | rfl <;> rfl

theorem Reached.step_outcome (h : x.Reached) (op : ExchangeOp ε τ) :
    ((exchange ε τ).step x op).1.state.producer = x.state.producer.or op.outcome := by
  cases op with
  | produce o => exact h.stepProducer_outcome o
  | call call =>
    rw [ExchangeOp.outcome, Option.or_none]
    simp only [exchange]
    split <;> rfl
  | consume expired =>
    rw [ExchangeOp.outcome, Option.or_none]
    exact stepConsumer_outcome x expired
  | wake =>
    rw [ExchangeOp.outcome, Option.or_none]
    rfl

theorem Reached.outcome_of_relies (h : x.Reached) (hc : x.consuming.Relies) :
    ∃ o, x.state.producer = some o := by
  cases h with
  | working _ hc' => exact absurd hc hc'
  | handed o | done | leaving o | left o | ended => exact ⟨_, rfl⟩

/-- A status that a call returns is idle, or it is read when the consumer relies on the
outcome. -/
theorem stepConsumer_answer {expired : Bool} {status : ResultStatus}
    (hs : (x.stepConsumer expired).2 = some status) :
    status = .idle ∨ x.consuming.Relies ∧ status = resultStatus x.state.producer := by
  cases hc : x.consuming with
  | statusRead | forRead =>
    rw [stepConsumer, hc] at hs
    exact .inr ⟨trivial, (Option.some.inj hs).symm⟩
  | statusLoad | forRewind =>
    simp only [stepConsumer, hc] at hs
    split at hs
    · exact .inl (Option.some.inj hs).symm
    · cases hs
  | _ =>
    simp only [stepConsumer, hc] at hs
    first | cases hs | (split at hs <;> cases hs)

theorem Reached.step_answer (h : x.Reached) (op : ExchangeOp ε τ) {status : ResultStatus}
    (hs : ((exchange ε τ).step x op).2 = some status) :
    status = .idle ∨ ∃ o, x.state.producer = some o ∧ status = resultStatus (some o) := by
  cases op with
  | produce | wake => cases hs
  | call call =>
    simp only [exchange] at hs
    split at hs <;> cases hs
  | consume expired =>
    rcases stepConsumer_answer hs with hidle | ⟨hrelies, heq⟩
    · exact .inl hidle
    · obtain ⟨o, ho⟩ := h.outcome_of_relies hrelies
      exact .inr ⟨o, ho, ho ▸ heq⟩

end Steps

section Reached

variable {x : Exchange ε τ}

theorem Reached.not_faulted (h : x.Reached) : x.faulted = false := by
  cases h <;> rfl

theorem Reached.deleted_iff (h : x.Reached) :
    x.deleted = true ↔ (∃ o, x.consuming = .gone o) ∧
      (x.producing = .notify ∨ x.producing = .finished) := by
  cases h with
  | working hp =>
    refine iff_of_false Bool.false_ne_true ?_
    rintro ⟨-, hn⟩
    rcases hp with ⟨rfl, -⟩ | ⟨rfl, -⟩ <;> rcases hn with hn | hn <;> cases hn
  | handed | left =>
    refine iff_of_false Bool.false_ne_true ?_
    rintro ⟨-, hn | hn⟩ <;> cases hn
  | done ctx hp hc =>
    refine iff_of_false Bool.false_ne_true ?_
    rintro ⟨⟨o, rfl⟩, -⟩
    exact hc
  | leaving =>
    refine iff_of_false Bool.false_ne_true ?_
    rintro ⟨⟨o, ho⟩, -⟩
    cases ho
  | ended st ctx hp => exact iff_of_true rfl ⟨⟨_, rfl⟩, hp⟩

theorem Reached.not_finished (h : x.Reached) (hc : x.consuming.Waits) :
    x.producing ≠ .finished := by
  cases h with
  | working hp => rcases hp with ⟨rfl, -⟩ | ⟨rfl, -⟩ <;> exact Producer.noConfusion
  | handed | left => exact Producer.noConfusion
  | @done pc o c ctx hp hr =>
    -- a consumer that sleeps now is about to be notified
    cases c with
    | waitBlocked | forBlocked =>
      obtain rfl : pc = .notify := hr
      exact Producer.noConfusion
    | suspended => exact hr.elim
    | _ => exact hc.elim
  | leaving => exact hc.elim
  | ended => exact hc.elim

theorem Reached.outcome_of_gone (h : x.Reached) {o : Outcome ε τ}
    (hc : x.consuming = .gone (some o)) : x.state.producer = some o := by
  cases h with
  | working _ hr =>
    subst hc
    exact absurd trivial hr
  | handed | leaving | left => cases hc
  | done ctx hp hr =>
    subst hc
    exact hr.elim
  | ended st ctx hp hr =>
    rcases hr with rfl | rfl <;> cases hc
    rfl

end Reached

theorem Reached.run {x : Exchange ε τ} (h : x.Reached) (ops : List (ExchangeOp ε τ)) :
    ((exchange ε τ).run x ops).1.Reached ∧
      ((exchange ε τ).run x ops).1.state.producer =
        x.state.producer.or (ops.findSome? ExchangeOp.outcome) := by
  induction ops generalizing x with
  | nil => exact ⟨h, Option.or_none.symm⟩
  | cons op ops ih =>
    obtain ⟨hrun, heq⟩ := ih (h.step op)
    refine ⟨hrun, heq.trans ?_⟩
    rw [h.step_outcome, List.findSome?_cons, Option.or_assoc]
    cases op.outcome <;> rfl

/-- A returned status stays that of the outcome, since the outcome does not change. -/
theorem Reached.run_answers {x : Exchange ε τ} (h : x.Reached) (ops : List (ExchangeOp ε τ))
    {status : ResultStatus} (hs : some status ∈ ((exchange ε τ).run x ops).2) :
    status = .idle ∨ ∃ o, ((exchange ε τ).run x ops).1.state.producer = some o ∧
      status = resultStatus (some o) := by
  have hall := (exchange ε τ).run_answers_stable (P := Reached)
    (R := fun answer x => x.Reached ∧ ∀ status, answer = some status → status = .idle ∨
      ∃ o, x.state.producer = some o ∧ status = resultStatus (some o))
    (fun x op h => h.step op) ?new ?keep h ops
  · exact (hall _ hs).2 status rfl
  case new =>
    refine fun x op h => ⟨h.step op, fun status hs => (h.step_answer op hs).imp_right ?_⟩
    rintro ⟨o, ho, rfl⟩
    exact ⟨o, by rw [h.step_outcome, ho, Option.some_or], rfl⟩
  case keep =>
    rintro x op answer ⟨h, hanswer⟩
    refine ⟨h.step op, fun status hs => (hanswer status hs).imp_right ?_⟩
    rintro ⟨o, ho, rfl⟩
    exact ⟨o, by rw [h.step_outcome, ho, Option.some_or], rfl⟩

end Exchange

/-- Whatever the order of the steps, there is no fault, the state is deleted exactly when both
parties have left it, and a consumer waits only for a producer that will still wake it. What the
consumer gets is the first outcome given to the producer, and the statuses it is told are idle or
of that outcome. -/
theorem result_exchanged {ε τ : Type*} (ops : List (ExchangeOp ε τ)) :
    let r := (exchange ε τ).run .new ops
    let given := ops.findSome? ExchangeOp.outcome
    r.1.faulted = false ∧
      (r.1.deleted = true ↔ (∃ o, r.1.consuming = .gone o) ∧
        (r.1.producing = .notify ∨ r.1.producing = .finished)) ∧
      (r.1.consuming.Waits → r.1.producing ≠ .finished) ∧
      (∀ o, r.1.consuming = .gone (some o) → given = some o) ∧
      ∀ status, some status ∈ r.2 →
        status = .idle ∨ ∃ o, given = some o ∧ status = resultStatus (some o) := by
  intro r given
  obtain ⟨h, heq⟩ := Exchange.reached_new.run ops
  have hgiven : r.1.state.producer = given := heq
  refine ⟨h.not_faulted, h.deleted_iff, h.not_finished, fun o ho => ?_, fun status hs => ?_⟩
  · rw [← hgiven, h.outcome_of_gone ho]
  · rw [← hgiven]
    exact Exchange.reached_new.run_answers ops hs

end Plain.Concurrency
