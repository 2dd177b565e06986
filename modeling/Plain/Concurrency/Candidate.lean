import Plain.Concurrency.Selection

/-! # One of the results of a `when_any`

How far the coroutine is with a result, and what its state is like then. Each step of the
producer, of the coroutine and of the owner leads from such a state to such a state.
-/

namespace Plain.Concurrency

inductive Phase where
  | ahead
  | setting
  | registered
  | rewound
  | gone
  deriving DecidableEq, Repr

namespace Phase

def mark : Phase → ProcessStatus
  | .ahead | .setting | .rewound => .idle
  | .registered => .consumerSet
  | .gone => .consumerDone

def context : Phase → ConsumerStatus
  | .setting | .registered => .whenAny
  | .ahead | .rewound | .gone => .idle

def owning : Phase → Owning
  | .gone => .gone
  | .ahead | .setting | .registered | .rewound => .holds

end Phase

def AnyStatus.Won (c : AnyStatus) : Prop := ∃ k, c = .completed k

/-- A context is done with processing before it is completed, and stays completed. -/
def AnyStatus.Leads (c c' : AnyStatus) : Prop :=
  (c.Won → c'.Won) ∧ (c ≠ .processing → c' ≠ .processing)

namespace Racing

def published : Racing → Bool
  | .complete next => next.published
  | .load | .swap _ => true

/-- Where a producer may be that has found the coroutine, or nobody. -/
def Raced (c : AnyStatus) : Racing → Prop
  | .complete .resume | .complete .finished | .load | .swap .processing => True
  | .swap .doneProcessing => c ≠ .processing
  | _ => False

end Racing

/-- Where a producer may be that has published the outcome of a result in use. -/
def Phase.Runs (c : AnyStatus) (missed : Prop) (context : ConsumerStatus) (r : Racing) :
    Phase → Prop
  | .ahead => context = .idle ∧ r = .complete .finished ∧ ¬ missed
  | .setting => context = .whenAny ∧ r = .complete .finished ∧ ¬ missed
  | .registered =>
      context = .whenAny ∧ r.Raced c ∧ (missed → r = .complete .finished) ∧
        (r = .complete .finished → c.Won ∨ missed)
  | .rewound => r.Raced c ∧ (missed → r = .complete .finished)
  | .gone => False

inductive Candidate.Kept {ε τ : Type*} (c : AnyStatus) (missed early : Prop) :
    Phase → Candidate ε τ → Prop where
  | working {ph : Phase} {pc : Producer} {pr : Option (Outcome ε τ)}
      (hw : pc = .build ∧ pr = none ∨ pc = .exchange ∧ ∃ o, pr = some o) (hm : ¬ missed)
      (he : ¬ early) :
      Kept c missed early ph
        ⟨⟨⟨ph.mark, ph.context, pr⟩, false, false⟩, .complete pc, ph.owning⟩
  | published {ph : Phase} {ctx : ConsumerStatus} {r : Racing} {o : Outcome ε τ}
      (hr : ph.Runs c missed ctx r) (he : ¬ early) :
      Kept c missed early ph ⟨⟨⟨.producerDone, ctx, some o⟩, false, false⟩, r, .holds⟩
  | leaving {r : Racing} (ctx : ConsumerStatus) (o : Outcome ε τ) (hr : r.Raced c)
      (hm : missed → r = .complete .finished) (he : ¬ early) :
      Kept c missed early .gone ⟨⟨⟨.consumerDone, ctx, some o⟩, false, false⟩, r, .delete⟩
  | left (o : Outcome ε τ) (hm : ¬ missed) (he : ¬ early) :
      Kept c missed early .gone
        ⟨⟨⟨.producerDone, .idle, some o⟩, false, false⟩, .complete .delete, .gone⟩
  | ended {r : Racing} {faulted : Bool} (st : ProcessStatus) (ctx : ConsumerStatus)
      (o : Outcome ε τ) (hr : r.Raced c) (hm : missed → r = .complete .finished)
      (he : early ↔ r = .complete .resume ∨ faulted = true)
      (hf : faulted = true → r ≠ .complete .resume) :
      Kept c missed early .gone ⟨⟨⟨st, ctx, some o⟩, true, faulted⟩, r, .gone⟩

section Kept

variable {ε τ : Type*} {c c' : AnyStatus} {missed early : Prop} {ph : Phase}
  {x : Candidate ε τ}

theorem AnyStatus.Leads.refl (c : AnyStatus) : c.Leads c := ⟨id, id⟩

theorem AnyStatus.leads_completed (c : AnyStatus) (k : ℕ) : c.Leads (.completed k) :=
  ⟨fun _ => ⟨k, rfl⟩, fun _ => AnyStatus.noConfusion⟩

theorem AnyStatus.won_of_ne (h : c ≠ .processing) (h' : c ≠ .doneProcessing) : c.Won := by
  cases c with
  | processing => exact absurd rfl h
  | doneProcessing => exact absurd rfl h'
  | completed k => exact ⟨k, rfl⟩

theorem Racing.Raced.mono {r : Racing} (h : r.Raced c) (hc : c.Leads c') : r.Raced c' := by
  unfold Raced at h ⊢
  split at h
  all_goals first | exact trivial | exact hc.2 h | exact h.elim

theorem Phase.Runs.mono {context : ConsumerStatus} {r : Racing} (h : ph.Runs c missed context r)
    (hc : c.Leads c') : ph.Runs c' missed context r := by
  cases ph with
  | ahead | setting | gone => exact h
  | registered => exact ⟨h.1, h.2.1.mono hc, h.2.2.1, fun hr => (h.2.2.2 hr).imp_left hc.1⟩
  | rewound => exact ⟨h.1.mono hc, h.2⟩

theorem Phase.Runs.raced {context : ConsumerStatus} {r : Racing}
    (h : ph.Runs c missed context r) : r.Raced c := by
  cases ph with
  | ahead | setting =>
    rw [h.2.1]
    trivial
  | registered => exact h.2.1
  | rewound => exact h.1
  | gone => exact h.elim

theorem Racing.Raced.published {r : Racing} (h : r.Raced c) :
    r.published = true := by
  unfold Raced at h
  split at h
  all_goals first | rfl | exact h.elim

namespace Candidate

theorem Kept.mono (h : x.Kept c missed early ph) (hc : c.Leads c') :
    x.Kept c' missed early ph := by
  cases h with
  | working hw hm he => exact .working hw hm he
  | published hr he => exact .published (hr.mono hc) he
  | leaving ctx o hr hm he => exact .leaving ctx o (hr.mono hc) hm he
  | left o hm he => exact .left o hm he
  | ended st ctx o hr hm he hf => exact .ended st ctx o (hr.mono hc) hm he hf

theorem Kept.congr {missed' early' : Prop} (h : x.Kept c missed early ph)
    (hm : missed ↔ missed') (he : early ↔ early') : x.Kept c missed' early' ph := by
  rwa [← propext hm, ← propext he]

theorem Kept.access (h : x.Kept c missed early ph) (hph : ph ≠ .gone) :
    x.toMemory.access true = x.toMemory := by
  cases h with
  | working | published => rfl
  | leaving | left | ended => exact absurd rfl hph

section Coroutine

theorem Kept.set (h : x.Kept c missed early .ahead) :
    Kept c missed early .setting ⟨x.setConsumer .whenAny, x.producing, x.owning⟩ := by
  cases h with
  | working hw hm he => exact .working hw hm he
  | published hr he =>
    obtain ⟨rfl, rfl, hm⟩ := hr
    exact .published ⟨rfl, rfl, hm⟩ he

theorem Kept.swap (h : x.Kept c missed early .setting) (hs : x.state.processStatus = .idle) :
    Kept c missed early .registered
      ⟨(x.toMemory.access true).setStatus .consumerSet, x.producing, x.owning⟩ := by
  cases h with
  | working hw hm he => exact .working hw hm he
  | published => cases hs

theorem Kept.miss (h : x.Kept c missed early .setting) (hs : x.state.processStatus ≠ .idle) :
    x.state.processStatus = .producerDone ∧
      Kept c True early .registered ⟨x.assertDone, x.producing, x.owning⟩ := by
  cases h with
  | working => exact absurd rfl hs
  | published hr he =>
    obtain ⟨rfl, rfl, -⟩ := hr
    exact ⟨rfl, .published ⟨rfl, trivial, fun _ => rfl, fun _ => .inr trivial⟩ he⟩

theorem Kept.rewind (h : x.Kept c missed early ph) (hph : ph = .ahead ∨ ph = .registered)
    (hs : x.state.processStatus ≠ .consumerSet) : x.Kept c missed early .rewound := by
  rcases hph with rfl | rfl
  · cases h with
    | working hw hm he => exact .working hw hm he
    | published hr he =>
      obtain ⟨-, rfl, hm⟩ := hr
      exact .published ⟨trivial, fun h => absurd h hm⟩ he
  · cases h with
    | working => exact absurd rfl hs
    | published hr he => exact .published ⟨hr.2.1, hr.2.2.1⟩ he

theorem Kept.rewindSwap (h : x.Kept c missed early .registered)
    (hs : x.state.processStatus = .consumerSet) :
    Kept c missed early .setting
      ⟨(x.toMemory.access true).setStatus .idle, x.producing, x.owning⟩ := by
  cases h with
  | working hw hm he => exact .working hw hm he
  | published => cases hs

theorem Kept.keep (h : x.Kept c missed early .registered)
    (hs : x.state.processStatus ≠ .consumerSet) :
    Kept c missed early .rewound ⟨x.assertDone, x.producing, x.owning⟩ := by
  cases h with
  | working => exact absurd rfl hs
  | published hr he => exact .published ⟨hr.2.1, hr.2.2.1⟩ he

theorem Kept.clear (h : x.Kept c missed early .setting) :
    let m := x.toMemory.access true
    Kept c missed early .rewound
      ⟨{ m with state := { m.state with consumer := .idle } }, x.producing, x.owning⟩ := by
  cases h with
  | working hw hm he => exact .working hw hm he
  | published hr he =>
    obtain ⟨-, rfl, hm⟩ := hr
    exact .published ⟨trivial, fun h => absurd h hm⟩ he

end Coroutine

section Owner

theorem Kept.destroy (h : x.Kept c missed early .rewound) :
    Kept c missed early .gone
      ⟨(x.access (x.state.processStatus = .idle ∨
          x.state.processStatus = .producerDone)).setStatus .consumerDone, x.producing,
        if x.state.processStatus = .producerDone then .delete else .gone⟩ := by
  cases h with
  | working hw hm he => exact .working hw hm he
  | published hr he => exact .leaving _ _ hr.1 hr.2 he

/-- What is deleted under the hands of a producer is deleted too early. -/
theorem Kept.delete (h : x.Kept c missed early ph) (hx : x.owning = .delete) :
    ph = .gone ∧ Kept c missed (early ∨ x.producing = .complete .resume) .gone
      ⟨x.toMemory.delete, x.producing, .gone⟩ := by
  cases h with
  | working => cases ph <;> cases hx
  | published => cases hx
  | left => cases hx
  | ended => cases hx
  | leaving ctx o hr hm he =>
    refine ⟨rfl, .ended _ ctx o hr hm ?_ Bool.false_ne_true.elim⟩
    simp [he, Memory.access]

end Owner

section Producer

theorem Kept.build (h : x.Kept c missed early ph) (hx : x.producing = .complete .build)
    (outcome : Outcome ε τ) :
    Kept c missed early ph ⟨x.toMemory.build outcome, .complete .exchange, x.owning⟩ := by
  cases h with
  | working hw hm he =>
    rcases hw with ⟨rfl, rfl⟩ | ⟨rfl, -⟩
    · exact .working (.inr ⟨rfl, outcome, rfl⟩) hm he
    · cases hx
  | published hr => cases hx; exact hr.raced.elim
  | leaving ctx o hr => cases hx; exact hr.elim
  | left => cases hx
  | ended st ctx o hr => cases hx; exact hr.elim

theorem Kept.exchange (h : x.Kept c missed early ph) (hx : x.producing = .complete .exchange) :
    Kept c missed early ph
      ⟨x.toMemory.completeProducer, .complete (.next x.state.processStatus), x.owning⟩ := by
  cases h with
  | working hw hm he =>
    rcases hw with ⟨rfl, -⟩ | ⟨rfl, o, rfl⟩
    · cases hx
    · cases ph with
      | ahead => exact .published ⟨rfl, rfl, hm⟩ he
      | setting => exact .published ⟨rfl, rfl, hm⟩ he
      | registered =>
        exact .published ⟨rfl, trivial, fun h => absurd h hm, nofun⟩ he
      | rewound => exact .published ⟨trivial, fun _ => rfl⟩ he
      | gone => exact .left o hm he
  | published hr => cases hx; exact hr.raced.elim
  | leaving ctx o hr => cases hx; exact hr.elim
  | left => cases hx
  | ended st ctx o hr => cases hx; exact hr.elim

/-- The context is read too late only from a result that was deleted too early. -/
theorem Kept.read (h : x.Kept c missed early ph) (hx : x.producing = .complete .resume) :
    Kept c missed early ph
      ⟨x.toMemory.access true,
        if x.state.consumer = .whenAny then .load else .complete .finished, x.owning⟩ := by
  have hraced : Racing.Raced c
      (if x.state.consumer = .whenAny then .load else .complete .finished) := by
    split <;> trivial
  cases h with
  | working hw =>
    rcases hw with ⟨rfl, -⟩ | ⟨rfl, -⟩ <;> cases hx
  | @published ph ctx r o hr he =>
    obtain rfl : r = .complete .resume := hx
    cases ph with
    | ahead => cases hr.2.1
    | setting => cases hr.2.1
    | registered =>
      obtain ⟨rfl, -, hm, -⟩ := hr
      exact .published ⟨rfl, trivial, fun h => (nomatch hm h), nofun⟩ he
    | rewound => exact .published ⟨hraced, fun h => nomatch hr.2 h⟩ he
    | gone => exact hr.elim
  | leaving ctx o hr hm he =>
    obtain rfl := hx
    exact .leaving ctx o hraced (fun h => nomatch hm h) he
  | left => cases hx
  | ended st ctx o hr hm he hf =>
    obtain rfl := hx
    refine .ended st ctx o hraced (fun h => nomatch hm h) ?_ fun _ => ?_
    · exact iff_of_true (he.mpr (.inl rfl)) (.inr (by simp))
    · split <;> exact nofun

theorem Kept.deleteSelf (h : x.Kept c missed early ph) (hx : x.producing = .complete .delete) :
    Kept c missed early ph ⟨x.toMemory.delete, .complete .finished, x.owning⟩ := by
  cases h with
  | working hw => rcases hw with ⟨rfl, -⟩ | ⟨rfl, -⟩ <;> cases hx
  | published hr => cases hx; exact hr.raced.elim
  | leaving ctx o hr => cases hx; exact hr.elim
  | left o hm he =>
    exact .ended _ _ o trivial (fun _ => rfl) (iff_of_false he (by simp [Memory.access])) nofun
  | ended st ctx o hr => cases hx; exact hr.elim

theorem Kept.race {r : Racing} (h : x.Kept c missed early ph)
    (hx : x.producing = .load ∨ ∃ found, x.producing = .swap found)
    (hr : r.Raced c) (hne : r ≠ .complete .resume) (hwon : r = .complete .finished → c.Won) :
    Kept c missed early ph ⟨x.toMemory, r, x.owning⟩ := by
  have hfinished : x.producing ≠ .complete .finished := by
    rcases hx with hx | ⟨found, hx⟩ <;> rw [hx] <;> exact Racing.noConfusion
  have hresume : x.producing ≠ .complete .resume := by
    rcases hx with hx | ⟨found, hx⟩ <;> rw [hx] <;> exact Racing.noConfusion
  cases h with
  | working => rcases hx with hx | ⟨found, hx⟩ <;> cases hx
  | @published ph ctx r o hr' he =>
    cases ph with
    | ahead => exact absurd hr'.2.1 hfinished
    | setting => exact absurd hr'.2.1 hfinished
    | registered =>
      obtain ⟨rfl, -, hm, -⟩ := hr'
      exact .published ⟨rfl, hr, fun h => absurd (hm h) hfinished, fun h => .inl (hwon h)⟩ he
    | rewound => exact .published ⟨hr, fun h => absurd (hr'.2 h) hfinished⟩ he
    | gone => exact hr'.elim
  | leaving ctx o _ hm he => exact .leaving ctx o hr (fun h => absurd (hm h) hfinished) he
  | left => rcases hx with hx | ⟨found, hx⟩ <;> cases hx
  | ended st ctx o _ hm he hf =>
    refine .ended st ctx o hr (fun h => absurd (hm h) hfinished) ?_ fun _ => hne
    exact he.trans (or_congr_left (iff_of_false hresume hne))

end Producer

section Facts

theorem Kept.published_of_done (h : x.Kept c missed early ph)
    (hs : x.state.processStatus = .producerDone) : x.producing.published = true := by
  cases h with
  | working => cases ph <;> cases hs
  | published hr => exact hr.raced.published
  | leaving => cases hs
  | left => rfl
  | ended st ctx o hr => exact hr.published

theorem Kept.finished_of_missed (h : x.Kept c missed early ph) (hm : missed) :
    x.producing = .complete .finished := by
  cases h with
  | working _ hm' => exact absurd hm hm'
  | published hr =>
    cases ph with
    | ahead => exact hr.2.1
    | setting => exact hr.2.1
    | registered => exact hr.2.2.1 hm
    | rewound => exact hr.2 hm
    | gone => exact hr.elim
  | leaving ctx o hr hm' => exact hm' hm
  | left _ hm' => exact absurd hm hm'
  | ended st ctx o hr hm' => exact hm' hm

theorem Kept.not_missed (h : x.Kept c missed early .ahead) : ¬ missed := by
  cases h with
  | working _ hm => exact hm
  | published hr => exact hr.2.2

theorem Kept.registered_of_set (h : x.Kept c missed early ph)
    (hph : ph = .ahead ∨ ph = .registered) (hs : x.state.processStatus = .consumerSet) :
    ph = .registered := by
  refine hph.resolve_left ?_
  rintro rfl
  cases h <;> cases hs

theorem Kept.ne_gone (h : x.Kept c missed early ph) (hx : x.owning = .holds) : ph ≠ .gone := by
  rintro rfl
  cases h with
  | published hr => exact hr.elim
  | working | leaving | left | ended => cases hx

theorem Kept.won_or_missed (h : x.Kept c missed early .registered)
    (hx : x.producing = .complete .finished) : c.Won ∨ missed := by
  cases h with
  | working hw => rcases hw with ⟨rfl, -⟩ | ⟨rfl, -⟩ <;> cases hx
  | published hr => exact hr.2.2.2 hx

theorem Kept.entered {found : AnyStatus} (h : x.Kept c missed early ph)
    (hx : x.producing = .swap found) : ph ≠ .ahead ∧ ph ≠ .setting := by
  constructor
  · rintro rfl
    cases h with
    | working => cases hx
    | published hr => cases hr.2.1.symm.trans hx
  · rintro rfl
    cases h with
    | working => cases hx
    | published hr => cases hr.2.1.symm.trans hx

theorem Kept.raced (h : x.Kept c missed early ph) :
    x.producing.Raced c ∨ x.producing = .complete .build ∨ x.producing = .complete .exchange ∨
      x.producing = .complete .delete := by
  cases h with
  | working hw =>
    rcases hw with ⟨rfl, -⟩ | ⟨rfl, -⟩
    · exact .inr (.inl rfl)
    · exact .inr (.inr (.inl rfl))
  | published hr => exact .inl hr.raced
  | leaving ctx o hr => exact .inl hr
  | left => exact .inr (.inr (.inr rfl))
  | ended st ctx o hr => exact .inl hr

theorem Kept.raced_of_ne {r : Racing} (h : x.Kept c missed early ph) (hr : x.producing = r)
    (hne : r ≠ .complete .build ∧ r ≠ .complete .exchange ∧ r ≠ .complete .delete) :
    r.Raced c := by
  have hraced := h.raced
  rw [hr] at hraced
  exact hraced.resolve_right (by simp [hne])

theorem Kept.early_iff (h : x.Kept c missed early ph) :
    x.faulted = true ↔ early ∧ x.producing ≠ .complete .resume := by
  cases h with
  | working _ _ he | published _ he | leaving _ _ _ _ he | left _ _ he =>
    exact iff_of_false Bool.false_ne_true fun h => he h.1
  | ended st ctx o hr hm he hf =>
    constructor
    · intro h
      exact ⟨he.mpr (.inr h), hf h⟩
    · rintro ⟨h, hne⟩
      exact (he.mp h).resolve_left hne

end Facts

end Candidate

end Kept

end Plain.Concurrency
