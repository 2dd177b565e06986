import Plain.Concurrency.Candidate

/-! # The runs of a `when_any`

What holds in every state that a `when_any` comes to, by one lemma for each step; which results
it returns, when it sleeps for ever, and that it can.
-/

namespace Plain.Concurrency

def Selecting.Allows (k : ℕ) : Selecting → Phase → Prop
  | .test j, ph | .load j, ph | .set j, ph | .inlineLoad j, ph | .inlineSwap j, ph =>
      ph = if k < j then .registered else .ahead
  | .swap j, ph => ph = if k < j then .registered else if k = j then .setting else .ahead
  | .finish, ph | .suspended, ph => ph = .registered
  | .resumed, ph => ph = .ahead ∨ ph = .registered
  | .rewind j _ _, ph => if k < j then ph = .rewound else ph = .ahead ∨ ph = .registered
  | .rewindSwap j _ _, ph =>
      if k < j then ph = .rewound
      else if k = j then ph = .registered
      else ph = .ahead ∨ ph = .registered
  | .clear j _ _, ph =>
      if k < j then ph = .rewound
      else if k = j then ph = .setting
      else ph = .ahead ∨ ph = .registered
  | .returned _, ph => ph = .rewound ∨ ph = .gone

/-- The coroutine has done with a result on its way to sleep. -/
def Selecting.Past (c : ℕ) : Selecting → Prop
  | .test j | .load j | .set j | .swap j => c < j
  | _ => True

def Selecting.Behind : Selecting → Prop
  | .resumed | .rewind _ _ _ | .rewindSwap _ _ _ | .clear _ _ _ | .returned _ => True
  | _ => False

namespace Selection

variable {ε τ : Type*}

def Fits (n : ℕ) (s : Selection ε τ) : Prop :=
  match s.coroutine with
  | .test k | .load k | .set k | .swap k => k < n ∧ s.context ≠ .doneProcessing
  | .inlineLoad k | .inlineSwap k =>
      k < n ∧ s.context ≠ .doneProcessing ∧ (s.results k).producing.published = true
  | .finish => s.context ≠ .doneProcessing
  | .suspended => s.context = .doneProcessing
  | .resumed => s.context.Won
  | .rewind k completed index | .rewindSwap k completed index | .clear k completed index =>
      k < n ∧ s.context = completed ∧
        ∃ c, completed = .completed c ∧ index = if c < k then some c else none
  | .returned index => ∃ c, s.context = .completed c ∧ index = some c

structure Reached (n : ℕ) (s : Selection ε τ) (r : Mishaps) : Prop where
  sound : s.faulted = false
  fits : s.Fits n
  kept : ∀ k < n, ∃ ph, s.coroutine.Allows k ph ∧
    (s.results k).Kept s.context (k ∈ r.missed) (k ∈ r.early) ph
  chosen : ∀ c, s.context = .completed c →
    c < n ∧ c ∉ r.missed ∧ s.coroutine.Past c ∧ (s.results c).producing.published = true

end Selection

namespace Selecting

variable {co : Selecting} {n k : ℕ} {ph : Phase}

theorem Allows.past (h : co.Allows k ph) (hph : ph ≠ .ahead ∧ ph ≠ .setting) : co.Past k := by
  cases co with
  | test j | load j | set j =>
    by_contra hk
    exact hph.1 (h.trans (if_neg hk))
  | swap j =>
    by_contra hk
    replace hk : ¬ k < j := hk
    rw [Allows, if_neg hk] at h
    split at h
    · exact hph.2 h
    · exact hph.1 h
  | _ => trivial

theorem Allows.loop {j : ℕ} (h : (Selecting.swap k).Allows j ph) (hj : j < n) (hne : j ≠ k) :
    (Selecting.loop n (k + 1)).Allows j ph := by
  rw [Allows, if_neg hne] at h
  unfold Selecting.loop
  split
  · rw [Allows, h]
    congr 1
    exact propext ⟨fun h => by omega, fun h => by omega⟩
  · rw [Allows, h, if_pos (by omega)]

theorem Allows.returned (h : co.Allows k .gone) : ∃ index, co = .returned index := by
  unfold Allows at h
  cases co with
  | returned index => exact ⟨index, rfl⟩
  | _ => grind

theorem Allows.of_lt {j : ℕ} (h : ph = if j < k then .registered else .ahead) :
    resumed.Allows j ph := by
  split at h
  · exact .inr h
  · exact .inl h

theorem allows_rewound {completed : AnyStatus} {index : Option ℕ} {j : ℕ} (hj : j < n)
    (h : if j < k + 1 then ph = .rewound else ph = .ahead ∨ ph = .registered) :
    (rewound n k completed index).Allows j ph := by
  unfold rewound rewinding
  split
  · exact h
  · rw [if_pos (by omega)] at h
    exact .inl h

theorem allows_rewound_of_ne {completed : AnyStatus} {index : Option ℕ} {j : ℕ} (hj : j < n)
    (hne : j ≠ k) (h : if j < k then ph = .rewound else ph = .ahead ∨ ph = .registered) :
    (rewound n k completed index).Allows j ph := by
  have hlt : j < k + 1 ↔ j < k := by omega
  exact allows_rewound hj (by rwa [if_congr hlt rfl rfl])

end Selecting

namespace Selection

variable {ε τ : Type*} {s : Selection ε τ} {r r' : Mishaps} {n k : ℕ}

theorem Reached.kept_update (h : s.Reached n r) {x : Candidate ε τ} {co : Selecting}
    {context : AnyStatus} (hcontext : s.context.Leads context)
    (hothers : ∀ j < n, j ≠ k → ∀ ph, s.coroutine.Allows j ph → co.Allows j ph)
    (hmissed : ∀ j, j ≠ k → (j ∈ r.missed ↔ j ∈ r'.missed))
    (hearly : ∀ j, j ≠ k → (j ∈ r.early ↔ j ∈ r'.early))
    (hx : ∃ ph, co.Allows k ph ∧ x.Kept context (k ∈ r'.missed) (k ∈ r'.early) ph) :
    ∀ j < n, ∃ ph, co.Allows j ph ∧
      (Function.update s.results k x j).Kept context (j ∈ r'.missed) (j ∈ r'.early) ph := by
  intro j hj
  by_cases hjk : j = k
  · subst hjk
    rwa [Function.update_self]
  · obtain ⟨ph, hph, hkept⟩ := h.kept j hj
    rw [Function.update_of_ne hjk]
    exact ⟨ph, hothers j hj hjk ph hph,
      (hkept.mono hcontext).congr (hmissed j hjk) (hearly j hjk)⟩

theorem Reached.kept_of (h : s.Reached n r) (ph : Phase) (hk : k < n)
    (hph : ∀ ph', s.coroutine.Allows k ph' → ph' = ph) :
    (s.results k).Kept s.context (k ∈ r.missed) (k ∈ r.early) ph := by
  obtain ⟨ph', hph', hkept⟩ := h.kept k hk
  exact hph ph' hph' ▸ hkept

section Producer

theorem Fits.suspended_of_done (h : s.Fits n) (hc : s.context = .doneProcessing) :
    s.coroutine = .suspended := by
  unfold Fits at h
  cases hco : s.coroutine with
  | suspended => rfl
  | test k | load k | set k | swap k =>
    simp only [hco] at h
    exact absurd hc h.2
  | inlineLoad k | inlineSwap k =>
    simp only [hco] at h
    exact absurd hc h.2.1
  | finish =>
    simp only [hco] at h
    exact absurd hc h
  | resumed =>
    simp only [hco] at h
    obtain ⟨c, hc'⟩ := h
    cases hc.symm.trans hc'
  | rewind | rewindSwap | clear =>
    simp only [hco] at h
    obtain ⟨-, hc', c, rfl, -⟩ := h
    cases hc.symm.trans hc'
  | returned =>
    simp only [hco] at h
    obtain ⟨c, hc', -⟩ := h
    cases hc.symm.trans hc'

theorem published_update {results : ℕ → Candidate ε τ} {x : Candidate ε τ} {j : ℕ}
    (hx : (results k).producing.published = true → x.producing.published = true)
    (hj : (results j).producing.published = true) :
    (Function.update results k x j).producing.published = true := by
  by_cases hjk : j = k
  · subst hjk
    rw [Function.update_self]
    exact hx hj
  · rwa [Function.update_of_ne hjk]

theorem Reached.produce (h : s.Reached n r) {m : Memory ε τ} {producing : Racing}
    (hp : (s.results k).producing.published = true → producing.published = true)
    (hk : k < n)
    (hx : ∀ ph, (s.results k).Kept s.context (k ∈ r.missed) (k ∈ r.early) ph →
      Candidate.Kept s.context (k ∈ r.missed) (k ∈ r.early) ph
        ⟨m, producing, (s.results k).owning⟩) :
    (s.setResult k m producing s.coroutine).Reached n r := by
  obtain ⟨ph, hph, hkept⟩ := h.kept k hk
  refine ⟨h.sound, ?_, ?_, fun c hc => ?_⟩
  · have hfits := h.fits
    unfold Fits at hfits ⊢
    cases hco : s.coroutine with
    | inlineLoad j | inlineSwap j =>
      simp only [setResult, hco] at hfits ⊢
      exact ⟨hfits.1, hfits.2.1, published_update hp hfits.2.2⟩
    | _ =>
      simp only [setResult, hco] at hfits ⊢
      exact hfits
  · exact h.kept_update (.refl _) (fun _ _ _ _ h => h) (fun _ _ => Iff.rfl) (fun _ _ => Iff.rfl)
      ⟨ph, hph, hx ph hkept⟩
  · obtain ⟨hlt, hm, hpast, hpub⟩ := h.chosen c hc
    exact ⟨hlt, hm, hpast, published_update hp hpub⟩

/-- The first producer completes the context, and resumes the coroutine if that is asleep. -/
theorem Reached.win (h : s.Reached n r) (hk : k < n) {found : AnyStatus} {co : Selecting}
    (hp : (s.results k).producing = .swap found)
    (hco : s.context = .processing ∧ co = s.coroutine ∨
      s.context = .doneProcessing ∧ co = .resumed) :
    Reached n { s.setResult k (s.results k).toMemory (.complete .finished) co with
      context := .completed k } r := by
  obtain ⟨ph, hph, hkept⟩ := h.kept k hk
  have hallows : ∀ j < n, ∀ ph, s.coroutine.Allows j ph → co.Allows j ph := by
    intro j _ ph hj
    rcases hco with ⟨-, rfl⟩ | ⟨hc, rfl⟩
    · exact hj
    · rw [h.fits.suspended_of_done hc] at hj
      exact .inr hj
  have hleads := AnyStatus.leads_completed s.context k
  refine ⟨h.sound, ?_, ?_, ?_⟩
  · rcases hco with ⟨hc, rfl⟩ | ⟨-, rfl⟩
    · have hfits := h.fits
      unfold Fits at hfits ⊢
      cases hco : s.coroutine with
      | test j | load j | set j | swap j =>
        simp only [setResult, hco] at hfits ⊢
        exact ⟨hfits.1, AnyStatus.noConfusion⟩
      | inlineLoad j | inlineSwap j =>
        simp only [setResult, hco] at hfits ⊢
        exact ⟨hfits.1, AnyStatus.noConfusion, published_update (fun _ => rfl) hfits.2.2⟩
      | finish => exact AnyStatus.noConfusion
      | suspended =>
        simp only [hco] at hfits
        cases hc.symm.trans hfits
      | resumed => exact ⟨k, rfl⟩
      | rewind | rewindSwap | clear =>
        simp only [hco] at hfits
        obtain ⟨-, hc', c, rfl, -⟩ := hfits
        cases hc.symm.trans hc'
      | returned =>
        simp only [hco] at hfits
        obtain ⟨c, hc', -⟩ := hfits
        cases hc.symm.trans hc'
    · exact ⟨k, rfl⟩
  · refine h.kept_update hleads (fun j hj _ => hallows j hj) (fun _ _ => Iff.rfl)
      (fun _ _ => Iff.rfl) ⟨ph, hallows k hk ph hph, ?_⟩
    exact (hkept.mono hleads).race (.inr ⟨found, hp⟩) trivial nofun fun _ => ⟨k, rfl⟩
  · rintro c ⟨⟩
    refine ⟨hk, fun hm => ?_, (hallows k hk ph hph).past (hkept.entered hp), ?_⟩
    · cases hp.symm.trans (hkept.finished_of_missed hm)
    · simp only [setResult, Function.update_self]
      rfl

theorem Reached.stepProducer (h : s.Reached n r) (hk : k < n) (outcome : Outcome ε τ) :
    (s.stepProducer k outcome).Reached n r := by
  cases hp : (s.results k).producing with
  | complete next =>
    cases next with
    | build =>
      simp only [Selection.stepProducer, hp]
      exact h.produce (by rw [hp]; exact nofun) hk fun ph hx => hx.build hp outcome
    | exchange =>
      simp only [Selection.stepProducer, hp]
      exact h.produce (by rw [hp]; exact nofun) hk fun ph hx => hx.exchange hp
    | resume =>
      have hread := h.produce (fun _ => by split <;> rfl) hk fun ph hx => hx.read hp
      cases hctx : (s.results k).state.consumer with
      | whenAny =>
        simp only [Selection.stepProducer, hp, hctx]
        rwa [if_pos hctx] at hread
      | idle | await | shared =>
        simp only [Selection.stepProducer, hp, hctx]
        rwa [if_neg (by rw [hctx]; exact nofun)] at hread
    | notify =>
      obtain ⟨ph, -, hkept⟩ := h.kept k hk
      exact (hkept.raced_of_ne hp (by simp)).elim
    | delete =>
      simp only [Selection.stepProducer, hp]
      exact h.produce (fun _ => rfl) hk fun ph hx => hx.deleteSelf hp
    | finished =>
      simp only [Selection.stepProducer, hp]
      exact h
  | load =>
    cases hc : s.context with
    | completed c =>
      simp only [Selection.stepProducer, hp, hc]
      exact h.produce (fun _ => rfl) hk fun ph hx =>
        hx.race (.inl hp) trivial nofun fun _ => ⟨c, hc⟩
    | processing =>
      simp only [Selection.stepProducer, hp, hc]
      exact h.produce (fun _ => rfl) hk fun ph hx => hx.race (.inl hp) trivial nofun nofun
    | doneProcessing =>
      simp only [Selection.stepProducer, hp, hc]
      exact h.produce (fun _ => rfl) hk fun ph hx =>
        hx.race (.inl hp) (by rw [hc]; exact nofun) nofun nofun
  | swap found =>
    cases found with
    | processing =>
      simp only [Selection.stepProducer, hp]
      split
      · next hc => exact h.win hk hp (.inl ⟨hc, rfl⟩)
      · exact h.produce (fun _ => rfl) hk fun ph hx =>
          hx.race (.inr ⟨_, hp⟩) trivial nofun nofun
    | doneProcessing =>
      simp only [Selection.stepProducer, hp]
      split
      · next hc =>
        have hwin := h.win hk hp (.inr ⟨hc, rfl⟩)
        have hco := h.fits.suspended_of_done hc
        exact { hwin with sound := by simp [h.sound, hco] }
      · next hc =>
        refine h.produce (fun _ => rfl) hk fun ph hx =>
          hx.race (.inr ⟨_, hp⟩) trivial nofun fun _ => ?_
        exact AnyStatus.won_of_ne (hx.raced_of_ne hp (by simp)) hc
    | completed c =>
      obtain ⟨ph, -, hkept⟩ := h.kept k hk
      exact (hkept.raced_of_ne hp (by simp)).elim

end Producer

section Coroutine

theorem Reached.goto (h : s.Reached n r) {context : AnyStatus} {co : Selecting}
    (hcontext : s.context.Leads context)
    (hfits : Fits n { s with context := context, coroutine := co })
    (hallows : ∀ j < n, ∀ ph, s.coroutine.Allows j ph → co.Allows j ph)
    (hchosen : ∀ c, context = .completed c →
      c < n ∧ c ∉ r.missed ∧ co.Past c ∧ (s.results c).producing.published = true) :
    Reached n { s with context := context, coroutine := co } r := by
  refine ⟨h.sound, hfits, fun j hj => ?_, hchosen⟩
  obtain ⟨ph, hph, hkept⟩ := h.kept j hj
  exact ⟨ph, hallows j hj ph hph, hkept.mono hcontext⟩

theorem Reached.select (h : s.Reached n r) {m : Memory ε τ} {co : Selecting}
    (hfits : Fits n (s.setResult k m (s.results k).producing co))
    (hothers : ∀ j < n, j ≠ k → ∀ ph, s.coroutine.Allows j ph → co.Allows j ph)
    (hmissed : ∀ j, j ≠ k → (j ∈ r.missed ↔ j ∈ r'.missed)) (hearly : r'.early = r.early)
    (hx : ∃ ph, co.Allows k ph ∧ Candidate.Kept s.context (k ∈ r'.missed) (k ∈ r.early) ph
      ⟨m, (s.results k).producing, (s.results k).owning⟩)
    (hpast : ∀ c, s.coroutine.Past c → c ∉ r.missed → co.Past c ∧ c ∉ r'.missed) :
    (s.setResult k m (s.results k).producing co).Reached n r' := by
  refine ⟨h.sound, hfits, ?_, fun c hc => ?_⟩
  · rw [← hearly] at hx
    exact h.kept_update (.refl _) hothers hmissed (fun _ _ => by rw [hearly]) hx
  · obtain ⟨hlt, hm, hp, hpub⟩ := h.chosen c hc
    obtain ⟨hp', hm'⟩ := hpast c hp hm
    exact ⟨hlt, hm', hp', published_update id hpub⟩

theorem Reached.resume (h : s.Reached n r) {context : AnyStatus}
    (hcontext : s.context.Leads context) (hwon : context.Won)
    (hallows : ∀ j < n, ∀ ph, s.coroutine.Allows j ph → Selecting.resumed.Allows j ph)
    (hchosen : ∀ c, context = .completed c →
      c < n ∧ c ∉ r.missed ∧ (s.results c).producing.published = true) :
    Reached n { s with context := context, coroutine := .resumed } r := by
  refine h.goto hcontext hwon hallows fun c hc => ?_
  obtain ⟨hlt, hm, hpub⟩ := hchosen c hc
  exact ⟨hlt, hm, trivial, hpub⟩

theorem Reached.resume_self (h : s.Reached n r) (hwon : s.context.Won)
    (hallows : ∀ j < n, ∀ ph, s.coroutine.Allows j ph → Selecting.resumed.Allows j ph) :
    Reached n { s with coroutine := .resumed } r :=
  h.resume (.refl _) hwon hallows fun c hc =>
    let ⟨hlt, hm, _, hpub⟩ := h.chosen c hc
    ⟨hlt, hm, hpub⟩

theorem Reached.test (h : s.Reached n r) (hco : s.coroutine = .test k) :
    (s.stepCoroutine n).Reached n r := by
  have hfits := h.fits
  simp only [Fits, hco] at hfits
  simp only [stepCoroutine, hco, hfits.2, decide_false, Bool.or_false]
  split
  · refine h.goto (.refl _) hfits (fun j _ ph hj => ?_) fun c hc => ?_
    · rwa [hco] at hj
    · have hchosen := h.chosen c hc
      rwa [hco] at hchosen
  · next hne =>
    refine h.resume_self (AnyStatus.won_of_ne hne hfits.2) fun j _ ph hj => ?_
    rw [hco] at hj
    exact .of_lt hj

theorem Reached.load (h : s.Reached n r) (hco : s.coroutine = .load k) :
    (s.stepCoroutine n).Reached n r := by
  have hfits := h.fits
  simp only [Fits, hco] at hfits
  have hkept := h.kept_of .ahead hfits.1 fun ph hph => by
    rwa [hco, Selecting.Allows, if_neg (Nat.lt_irrefl k)] at hph
  simp only [stepCoroutine, hco]
  rw [hkept.access Phase.noConfusion]
  split
  · next hs =>
    refine h.select ⟨hfits.1, hfits.2, ?_⟩ (fun j _ _ ph hj => ?_) (fun _ _ => Iff.rfl) rfl
      ⟨.ahead, (if_neg (Nat.lt_irrefl k)).symm, hkept⟩ fun c _ hm => ⟨trivial, hm⟩
    · exact published_update id (hkept.published_of_done hs)
    · rwa [hco] at hj
  · refine h.select hfits (fun j _ _ ph hj => ?_) (fun _ _ => Iff.rfl) rfl
      ⟨.ahead, (if_neg (Nat.lt_irrefl k)).symm, hkept⟩ fun c hp hm => ⟨?_, hm⟩
    · rwa [hco] at hj
    · rwa [hco] at hp

theorem Reached.set (h : s.Reached n r) (hco : s.coroutine = .set k) :
    (s.stepCoroutine n).Reached n r := by
  have hfits := h.fits
  simp only [Fits, hco] at hfits
  have hkept := h.kept_of .ahead hfits.1 fun ph hph => by
    rwa [hco, Selecting.Allows, if_neg (Nat.lt_irrefl k)] at hph
  simp only [stepCoroutine, hco]
  refine h.select hfits (fun j _ hne ph hj => ?_) (fun _ _ => Iff.rfl) rfl
    ⟨.setting, ?_, hkept.set⟩ fun c hp hm => ⟨?_, hm⟩
  · rw [hco] at hj
    rwa [Selecting.Allows, if_neg hne]
  · rw [Selecting.Allows, if_neg (Nat.lt_irrefl k), if_pos rfl]
  · rwa [hco] at hp

theorem fits_loop {results : ℕ → Candidate ε τ} {context : AnyStatus} {faulted : Bool}
    (h : context ≠ .doneProcessing) : Fits n ⟨context, results, .loop n k, faulted⟩ := by
  unfold Selecting.loop
  split
  · next hlt => exact ⟨hlt, h⟩
  · exact h

theorem past_loop {c : ℕ} (h : c < k) : (Selecting.loop n (k + 1)).Past c := by
  unfold Selecting.loop
  split
  · exact Nat.lt_succ_of_lt h
  · trivial

theorem allows_loop : (Selecting.loop n (k + 1)).Allows k .registered := by
  unfold Selecting.loop
  split
  · exact (if_pos (Nat.lt_succ_self k)).symm
  · rfl

/-- Where the compare-exchange fails the result is noted as missed. -/
theorem Reached.swap (h : s.Reached n r) (hco : s.coroutine = .swap k) :
    (s.stepCoroutine n).Reached n (r.note s .select) := by
  have hfits := h.fits
  simp only [Fits, hco] at hfits
  have hkept := h.kept_of .setting hfits.1 fun ph hph => by
    rwa [hco, Selecting.Allows, if_neg (Nat.lt_irrefl k), if_pos rfl] at hph
  simp only [stepCoroutine, Mishaps.note, hco]
  split
  · next hs =>
    rw [if_neg (by rw [hs]; exact nofun)]
    refine h.select (fits_loop hfits.2) (fun j hj hne ph hph => ?_) (fun _ _ => Iff.rfl) rfl
      ⟨.registered, allows_loop, hkept.swap hs⟩ fun c hp hm => ⟨?_, hm⟩
    · rw [hco] at hph
      exact hph.loop hj hne
    · rw [hco] at hp
      exact past_loop hp
  · next hs =>
    obtain ⟨hdone, hmiss⟩ := hkept.miss hs
    rw [if_pos hdone]
    refine h.select (fits_loop hfits.2) (fun j hj hne ph hph => ?_) (fun j hne => ?_) rfl
      ⟨.registered, allows_loop, hmiss.congr ?_ Iff.rfl⟩ fun c hp hm => ?_
    · rw [hco] at hph
      exact hph.loop hj hne
    · rw [List.mem_cons, or_iff_right hne]
    · exact iff_of_true trivial List.mem_cons_self
    · rw [hco] at hp
      refine ⟨past_loop hp, ?_⟩
      rw [List.mem_cons, not_or]
      exact ⟨Nat.ne_of_lt hp, hm⟩

theorem Reached.inlineLoad (h : s.Reached n r) (hco : s.coroutine = .inlineLoad k) :
    (s.stepCoroutine n).Reached n r := by
  have hfits := h.fits
  simp only [Fits, hco] at hfits
  simp only [stepCoroutine, hco, hfits.2.1, decide_false, Bool.or_false]
  split
  · refine h.goto (.refl _) hfits (fun j _ ph hj => ?_) fun c hc => ?_
    · rwa [hco] at hj
    · have hchosen := h.chosen c hc
      rwa [hco] at hchosen
  · next hne =>
    refine h.resume_self (AnyStatus.won_of_ne hne hfits.2.1) fun j _ ph hj => ?_
    rw [hco] at hj
    exact .of_lt hj

theorem Reached.inlineSwap (h : s.Reached n r) (hco : s.coroutine = .inlineSwap k) :
    (s.stepCoroutine n).Reached n r := by
  have hfits := h.fits
  simp only [Fits, hco] at hfits
  have hallows : ∀ j < n, ∀ ph, s.coroutine.Allows j ph → Selecting.resumed.Allows j ph := by
    intro j _ ph hj
    rw [hco] at hj
    exact .of_lt hj
  simp only [stepCoroutine, hco]
  split
  · refine h.resume (AnyStatus.leads_completed _ k) ⟨k, rfl⟩ hallows ?_
    rintro c ⟨⟩
    refine ⟨hfits.1, fun hm => ?_, hfits.2.2⟩
    -- A missed result is behind the coroutine, which has left its loop at this one.
    have hkept := h.kept_of .ahead hfits.1 fun ph hph => by
      rwa [hco, Selecting.Allows, if_neg (Nat.lt_irrefl k)] at hph
    exact hkept.not_missed hm
  · next hne => exact h.resume_self (AnyStatus.won_of_ne hne hfits.2.1) hallows

theorem Reached.finish (h : s.Reached n r) (hco : s.coroutine = .finish) :
    (s.stepCoroutine n).Reached n r := by
  have hfits := h.fits
  simp only [Fits, hco] at hfits
  simp only [stepCoroutine, hco, hfits, decide_false, Bool.or_false]
  split
  · next hc =>
    refine h.goto ?_ rfl (fun j _ ph hj => ?_) nofun
    · rw [hc]
      exact ⟨nofun, nofun⟩
    · rwa [hco] at hj
  · next hne =>
    refine h.resume_self (AnyStatus.won_of_ne hne hfits) fun j _ ph hj => ?_
    rw [hco] at hj
    exact .inr hj

theorem Reached.resumed (h : s.Reached n r) (hco : s.coroutine = .resumed) :
    (s.stepCoroutine n).Reached n r := by
  have hfits := h.fits
  simp only [Fits, hco] at hfits
  obtain ⟨c, hc⟩ := hfits
  obtain ⟨hlt, -⟩ := h.chosen c hc
  have hn : 0 < n := Nat.zero_lt_of_lt hlt
  simp only [stepCoroutine, hco, Selecting.rewinding, if_pos hn]
  refine h.goto (.refl _) ⟨hn, rfl, c, hc, rfl⟩ (fun j _ ph hj => ?_) fun c hc => ?_
  · rwa [hco] at hj
  · have hchosen := h.chosen c hc
    rwa [hco] at hchosen

theorem fits_rewound (h : s.Reached n r) {m : Memory ε τ} {producing : Racing}
    {completed : AnyStatus} {index : Option ℕ}
    (hfits : s.context = completed ∧
      ∃ c, completed = .completed c ∧ index = if c < k then some c else none) :
    Fits n (s.setResult k m producing (.rewound n k completed index)) := by
  obtain ⟨hc, c, rfl, rfl⟩ := hfits
  obtain ⟨hlt, -⟩ := h.chosen c hc
  have hindex : (if AnyStatus.completed c = .completed k then some k
      else if c < k then some c else none) = if c < k + 1 then some c else none := by
    by_cases hck : c = k
    · rw [hck, if_pos rfl, if_pos (Nat.lt_succ_self k)]
    · have hiff : c < k + 1 ↔ c < k := by omega
      rw [if_neg (mt AnyStatus.completed.inj hck), if_congr hiff rfl rfl]
  unfold Selecting.rewound Selecting.rewinding
  rw [hindex]
  split
  · next hk => exact ⟨hk, hc, c, rfl, rfl⟩
  · exact ⟨c, hc, if_pos (by omega)⟩

theorem past_rewound {completed : AnyStatus} {index : Option ℕ} (c : ℕ) :
    (Selecting.rewound n k completed index).Past c := by
  unfold Selecting.rewound Selecting.rewinding
  split <;> trivial

theorem allows_rewound_self {completed : AnyStatus} {index : Option ℕ} (hk : k < n) :
    (Selecting.rewound n k completed index).Allows k .rewound :=
  Selecting.allows_rewound hk (by rw [if_pos (Nat.lt_succ_self k)])

theorem Reached.rewind {completed : AnyStatus} {index : Option ℕ} (h : s.Reached n r)
    (hco : s.coroutine = .rewind k completed index) : (s.stepCoroutine n).Reached n r := by
  have hfits := h.fits
  simp only [Fits, hco] at hfits
  obtain ⟨ph, hph, hkept⟩ := h.kept k hfits.1
  rw [hco, Selecting.Allows, if_neg (Nat.lt_irrefl k)] at hph
  simp only [stepCoroutine, hco]
  rw [hkept.access (by rintro rfl; rcases hph with hph | hph <;> cases hph)]
  split
  · next hs =>
    refine h.select hfits (fun j _ hne ph hj => ?_) (fun _ _ => Iff.rfl) rfl ⟨ph, ?_, hkept⟩
      fun c _ hm => ⟨trivial, hm⟩
    · rw [hco] at hj
      rwa [Selecting.Allows, if_neg hne]
    · rw [Selecting.Allows, if_neg (Nat.lt_irrefl k), if_pos rfl]
      exact hkept.registered_of_set hph hs
  · next hs =>
    refine h.select (fits_rewound h hfits.2) (fun j hj hne ph hph => ?_) (fun _ _ => Iff.rfl) rfl
      ⟨.rewound, allows_rewound_self hfits.1, hkept.rewind hph hs⟩
      fun c _ hm => ⟨past_rewound c, hm⟩
    rw [hco] at hph
    exact Selecting.allows_rewound_of_ne hj hne hph

theorem Reached.rewindSwap {completed : AnyStatus} {index : Option ℕ} (h : s.Reached n r)
    (hco : s.coroutine = .rewindSwap k completed index) : (s.stepCoroutine n).Reached n r := by
  have hfits := h.fits
  simp only [Fits, hco] at hfits
  have hkept := h.kept_of .registered hfits.1 fun ph hph => by
    rwa [hco, Selecting.Allows, if_neg (Nat.lt_irrefl k), if_pos rfl] at hph
  simp only [stepCoroutine, hco]
  split
  · next hs =>
    refine h.select hfits (fun j _ hne ph hj => ?_) (fun _ _ => Iff.rfl) rfl
      ⟨.setting, ?_, hkept.rewindSwap hs⟩ fun c _ hm => ⟨trivial, hm⟩
    · rw [hco, Selecting.Allows, if_neg hne] at hj
      rwa [Selecting.Allows, if_neg hne]
    · rw [Selecting.Allows, if_neg (Nat.lt_irrefl k), if_pos rfl]
  · next hs =>
    refine h.select (fits_rewound h hfits.2) (fun j hj hne ph hph => ?_) (fun _ _ => Iff.rfl) rfl
      ⟨.rewound, allows_rewound_self hfits.1, hkept.keep hs⟩
      fun c _ hm => ⟨past_rewound c, hm⟩
    rw [hco, Selecting.Allows, if_neg hne] at hph
    exact Selecting.allows_rewound_of_ne hj hne hph

theorem Reached.clear {completed : AnyStatus} {index : Option ℕ} (h : s.Reached n r)
    (hco : s.coroutine = .clear k completed index) : (s.stepCoroutine n).Reached n r := by
  have hfits := h.fits
  simp only [Fits, hco] at hfits
  have hkept := h.kept_of .setting hfits.1 fun ph hph => by
    rwa [hco, Selecting.Allows, if_neg (Nat.lt_irrefl k), if_pos rfl] at hph
  simp only [stepCoroutine, hco]
  refine h.select (fits_rewound h hfits.2) (fun j hj hne ph hph => ?_) (fun _ _ => Iff.rfl) rfl
    ⟨.rewound, allows_rewound_self hfits.1, hkept.clear⟩ fun c _ hm => ⟨past_rewound c, hm⟩
  rw [hco, Selecting.Allows, if_neg hne] at hph
  exact Selecting.allows_rewound_of_ne hj hne hph

theorem Reached.stepCoroutine (h : s.Reached n r) :
    (s.stepCoroutine n).Reached n (r.note s .select) := by
  cases hco : s.coroutine with
  | swap k => exact h.swap hco
  | test k =>
    simp only [Mishaps.note, hco]
    exact h.test hco
  | load k =>
    simp only [Mishaps.note, hco]
    exact h.load hco
  | set k =>
    simp only [Mishaps.note, hco]
    exact h.set hco
  | inlineLoad k =>
    simp only [Mishaps.note, hco]
    exact h.inlineLoad hco
  | inlineSwap k =>
    simp only [Mishaps.note, hco]
    exact h.inlineSwap hco
  | finish =>
    simp only [Mishaps.note, hco]
    exact h.finish hco
  | resumed =>
    simp only [Mishaps.note, hco]
    exact h.resumed hco
  | rewind =>
    simp only [Mishaps.note, hco]
    exact h.rewind hco
  | rewindSwap =>
    simp only [Mishaps.note, hco]
    exact h.rewindSwap hco
  | clear =>
    simp only [Mishaps.note, hco]
    exact h.clear hco
  | suspended | returned =>
    simp only [Mishaps.note, Selection.stepCoroutine, hco]
    exact h

end Coroutine

section Owner

theorem Reached.release (h : s.Reached n r) {index : Option ℕ} {m : Memory ε τ} {owning : Owning}
    (hco : s.coroutine = .returned index) (hmissed : r'.missed = r.missed)
    (hearly : ∀ j, j ≠ k → (j ∈ r.early ↔ j ∈ r'.early))
    (hx : Candidate.Kept s.context (k ∈ r.missed) (k ∈ r'.early) .gone
      ⟨m, (s.results k).producing, owning⟩) :
    Reached n { s with
      results := Function.update s.results k ⟨m, (s.results k).producing, owning⟩ } r' := by
  refine ⟨h.sound, ?_, ?_, fun c hc => ?_⟩
  · have hfits := h.fits
    simp only [Fits, hco] at hfits ⊢
    exact hfits
  · refine h.kept_update (.refl _) (fun _ _ _ _ h => h) (fun _ _ => by rw [hmissed]) hearly
      ⟨.gone, ?_, by rwa [hmissed]⟩
    rw [hco]
    exact .inr rfl
  · obtain ⟨hlt, hm, hpast, hpub⟩ := h.chosen c hc
    rw [hmissed]
    exact ⟨hlt, hm, hpast, published_update id hpub⟩

theorem Reached.stepOwner (h : s.Reached n r) (hk : k < n) :
    (s.stepOwner k).Reached n (r.note s (.destroy k)) := by
  obtain ⟨ph, hph, hkept⟩ := h.kept k hk
  cases ho : (s.results k).owning with
  | delete =>
    obtain ⟨rfl, hdelete⟩ := hkept.delete ho
    obtain ⟨index, hco⟩ := hph.returned
    have hstep : s.stepOwner k = { s with
        results := Function.update s.results k
          ⟨(s.results k).delete, (s.results k).producing, .gone⟩ } := by
      simp only [Selection.stepOwner, hco, ho]
    rw [hstep, Mishaps.note]
    by_cases hp : (s.results k).producing = .complete .resume
    · rw [if_pos ⟨ho, hp⟩]
      refine h.release hco rfl (fun j hne => ?_) (hdelete.congr Iff.rfl ?_)
      · rw [List.mem_cons, or_iff_right hne]
      · exact iff_of_true (.inr hp) List.mem_cons_self
    · rw [if_neg (mt And.right hp)]
      exact h.release hco rfl (fun _ _ => Iff.rfl) (hdelete.congr Iff.rfl (or_iff_left hp))
  | holds =>
    simp only [Selection.stepOwner, Mishaps.note, ho]
    split
    · next hco _ =>
      rw [hco] at hph
      obtain rfl : ph = .rewound := hph.resolve_right (hkept.ne_gone ho)
      exact h.release hco rfl (fun _ _ => Iff.rfl) hkept.destroy
    · next ho' => cases ho'
    · exact h
  | gone =>
    simp only [Selection.stepOwner, Mishaps.note, ho]
    split
    · next ho' => cases ho'
    · next ho' => cases ho'
    · exact h

end Owner

theorem reached_new (n : ℕ) : (new n : Selection ε τ).Reached n ⟨[], []⟩ := by
  refine ⟨rfl, fits_loop nofun, fun k hk => ⟨.ahead, ?_, ?_⟩, nofun⟩
  · have hn : 0 < n := Nat.zero_lt_of_lt hk
    simp only [new, Selecting.loop, if_pos hn]
    rfl
  · exact .working (.inl ⟨rfl, rfl⟩) List.not_mem_nil List.not_mem_nil

theorem Reached.step (h : s.Reached n r) (op : SelectOp ε τ) :
    ((selecting ε τ n).step s op).1.Reached n (r.note s op) := by
  cases op with
  | produce k outcome =>
    simp only [selecting, Mishaps.note]
    split
    · next hk => exact h.stepProducer hk outcome
    · exact h
  | select => exact h.stepCoroutine
  | destroy k =>
    simp only [selecting]
    split
    · next hk => exact h.stepOwner hk
    · next hk =>
      rw [Mishaps.note]
      split
      · refine { h with kept := fun j hj => ?_ }
        obtain ⟨ph, hph, hkept⟩ := h.kept j hj
        refine ⟨ph, hph, hkept.congr Iff.rfl ?_⟩
        rw [List.mem_cons, or_iff_right (by omega)]
      · exact h

section Rest

theorem Reached.returned (h : s.Reached n r) {index : Option ℕ}
    (hco : s.coroutine = .returned index) :
    ∃ k < n, index = some k ∧ k ∉ r.missed ∧ (s.results k).producing.published = true := by
  have hfits := h.fits
  simp only [Fits, hco] at hfits
  obtain ⟨c, hc, hindex⟩ := hfits
  obtain ⟨hlt, hm, -, hpub⟩ := h.chosen c hc
  exact ⟨c, hlt, hindex, hm, hpub⟩

/-- Producers that are done have left a sleeping coroutine alone only if it missed them. -/
theorem Reached.missed_of_suspended (h : s.Reached n r) (hco : s.coroutine = .suspended)
    (hk : k < n) (hp : (s.results k).producing = .complete .finished) : k ∈ r.missed := by
  have hkept := h.kept_of .registered hk fun ph hph => by rwa [hco] at hph
  have hfits := h.fits
  simp only [Fits, hco] at hfits
  refine (hkept.won_or_missed hp).resolve_left ?_
  rintro ⟨c, hc⟩
  cases hfits.symm.trans hc

theorem step_of_suspended (hco : s.coroutine = .suspended)
    (hp : ∀ k < n, (s.results k).producing = .complete .finished) (op : SelectOp ε τ) :
    ((selecting ε τ n).step s op).1 = s := by
  cases op with
  | produce k outcome =>
    simp only [selecting]
    split
    · next hk => simp only [stepProducer, hp k hk]
    · rfl
  | select => simp only [selecting, stepCoroutine, hco]
  | destroy k => simp only [selecting, stepOwner, hco, ite_self]

end Rest

section Resumptions

theorem behind_rewinding (n k : ℕ) (completed : AnyStatus) (index : Option ℕ) :
    (Selecting.rewinding n k completed index).Behind ∧
      Selecting.rewinding n k completed index ≠ .resumed := by
  unfold Selecting.rewinding
  split <;> exact ⟨trivial, Selecting.noConfusion⟩

theorem behind_stepCoroutine (h : s.coroutine.Behind) :
    (s.stepCoroutine n).coroutine.Behind ∧ (s.stepCoroutine n).coroutine ≠ .resumed := by
  unfold Selection.stepCoroutine
  cases hco : s.coroutine with
  | resumed => exact behind_rewinding n 0 s.context none
  | rewind k completed index =>
    dsimp only [setResult]
    split
    · exact ⟨trivial, Selecting.noConfusion⟩
    · exact behind_rewinding _ _ _ _
  | rewindSwap k completed index =>
    dsimp only
    split
    · exact ⟨trivial, Selecting.noConfusion⟩
    · exact behind_rewinding _ _ _ _
  | clear k completed index => exact behind_rewinding _ _ _ _
  | returned index =>
    dsimp only
    rw [hco]
    exact ⟨trivial, Selecting.noConfusion⟩
  | _ =>
    rw [hco] at h
    exact h.elim

theorem Reached.coroutine_stepProducer (h : s.Reached n r) (k : ℕ) (outcome : Outcome ε τ) :
    (s.stepProducer k outcome).coroutine = s.coroutine ∨ s.coroutine = .suspended := by
  cases hp : (s.results k).producing with
  | complete next =>
    left
    cases next with
    | resume =>
      simp only [Selection.stepProducer, hp]
      cases (s.results k).state.consumer <;> rfl
    | _ => simp only [Selection.stepProducer, hp, setResult]
  | load =>
    left
    simp only [Selection.stepProducer, hp]
    cases s.context <;> rfl
  | swap found =>
    cases found with
    | doneProcessing =>
      simp only [Selection.stepProducer, hp]
      split
      · next hc => exact .inr (h.fits.suspended_of_done hc)
      · exact .inl rfl
    | processing | completed =>
      left
      simp only [Selection.stepProducer, hp]
      split <;> rfl

theorem coroutine_stepOwner (s : Selection ε τ) (k : ℕ) :
    (s.stepOwner k).coroutine = s.coroutine := by
  unfold Selection.stepOwner
  split <;> rfl

/-- A coroutine behind its sleep does not come to `await_resume` again. -/
theorem Reached.behind_step (h : s.Reached n r) (hco : s.coroutine.Behind) (op : SelectOp ε τ) :
    ((selecting ε τ n).step s op).1.coroutine.Behind ∧
      (((selecting ε τ n).step s op).1.coroutine = .resumed → s.coroutine = .resumed) := by
  have hsame : ∀ s' : Selection ε τ, s'.coroutine = s.coroutine →
      s'.coroutine.Behind ∧ (s'.coroutine = .resumed → s.coroutine = .resumed) :=
    fun s' hs => ⟨hs.symm ▸ hco, fun hr => hs.symm.trans hr⟩
  cases op with
  | produce k outcome =>
    simp only [selecting]
    split
    · refine hsame _ ((h.coroutine_stepProducer k outcome).resolve_right fun hs => ?_)
      rw [hs] at hco
      exact hco
    · exact hsame s rfl
  | select => exact (behind_stepCoroutine hco).imp_right fun hne hr => absurd hr hne
  | destroy k =>
    simp only [selecting]
    split
    · exact hsame _ (coroutine_stepOwner s k)
    · exact hsame s rfl

theorem resumptions_le_one (n : ℕ) (ops : List (SelectOp ε τ)) :
    (((selecting ε τ n).noting (resumptions n)).run (new n, 0) ops).1.2 ≤ 1 := by
  -- none so far, or the coroutine is behind it
  have hrun := ((selecting ε τ n).noting (resumptions n)).run_keeps
    (P := fun t => (∃ r, t.1.Reached n r) ∧ (t.2 = 0 ∨ t.2 = 1 ∧ t.1.coroutine.Behind))
    (fun t op => ?_) (s := (new n, 0)) ⟨⟨_, reached_new n⟩, .inl rfl⟩ ops
  · rcases hrun.2 with hcount | ⟨hcount, -⟩ <;> omega
  · rintro ⟨⟨r, h⟩, hcount⟩
    refine ⟨⟨_, h.step op⟩, ?_⟩
    change resumptions n t.1 t.2 op = 0 ∨ resumptions n t.1 t.2 op = 1 ∧ _
    unfold resumptions
    rcases hcount with hcount | ⟨hcount, hco⟩
    · rw [hcount]
      split
      · next henter =>
        right
        refine ⟨rfl, ?_⟩
        change ((selecting ε τ n).step t.1 op).1.coroutine.Behind
        rw [henter.2]
        trivial
      · exact .inl rfl
    · obtain ⟨hbehind, hnot⟩ := h.behind_step hco op
      rw [if_neg fun henter => henter.1 (hnot henter.2)]
      exact .inr ⟨hcount, hbehind⟩

end Resumptions

end Selection

/-- The coroutine of a `when_any` comes to `await_resume` at most once, and what it returns is the
index of a result that has its outcome. With all producers done it has returned, or it sleeps since
it has missed every one of them. A result that is deleted while its producer is about to read the
context is read after that, and there are no other faults. -/
theorem when_any_selected (ε τ : Type*) (n : ℕ) (ops : List (SelectOp ε τ)) :
    let r := (((selecting ε τ n).noting Mishaps.note).run (.new n, ⟨[], []⟩) ops).1
    (((selecting ε τ n).noting (Selection.resumptions n)).run (.new n, 0) ops).1.2 ≤ 1 ∧
      r.1.faulted = false ∧
      (∀ k < n, (r.1.results k).faulted = true ↔
        k ∈ r.2.early ∧ (r.1.results k).producing ≠ .complete .resume) ∧
      (∀ index, r.1.coroutine = .returned index →
        ∃ k < n, index = some k ∧ (r.1.results k).producing.published = true) ∧
      ((∀ k < n, (r.1.results k).producing = .complete .finished) →
        r.1.coroutine = .suspended ∨ (∃ index, r.1.coroutine = .returned index) →
        (r.1.coroutine = .suspended ↔ ∀ k < n, k ∈ r.2.missed)) := by
  intro r
  have h : r.1.Reached n r.2 :=
    ((selecting ε τ n).noting Mishaps.note).run_keeps (P := fun r => r.1.Reached n r.2)
      (fun r op h => h.step op) (Selection.reached_new n) ops
  refine ⟨Selection.resumptions_le_one n ops, h.sound, fun k hk => ?_, fun index hco => ?_,
    fun hfinished hrest => ⟨?_, fun hm => ?_⟩⟩
  · obtain ⟨ph, -, hkept⟩ := h.kept k hk
    exact hkept.early_iff
  · obtain ⟨k, hk, hindex, -, hpub⟩ := h.returned hco
    exact ⟨k, hk, hindex, hpub⟩
  · exact fun hco k hk => h.missed_of_suspended hco hk (hfinished k hk)
  · refine hrest.resolve_right ?_
    rintro ⟨index, hco⟩
    obtain ⟨k, hk, -, hmissed, -⟩ := h.returned hco
    exact hmissed (hm k hk)

/-- The first of two results wakes the coroutine up; the second one is destroyed between the
exchange of its producer and the read of the context behind it. -/
example :
    let suspend : List (SelectOp Unit Unit) := List.replicate 9 .select
    let publish k : List (SelectOp Unit Unit) := List.replicate 2 (.produce k (.object ()))
    let resume : List (SelectOp Unit Unit) := List.replicate 3 (.produce 0 (.object ()))
    let s := ((selecting Unit Unit 2).run (.new 2) (suspend ++ publish 0 ++ publish 1 ++ resume ++
      List.replicate 3 .select ++ [.destroy 1, .destroy 1, .produce 1 (.object ())])).1
    s.coroutine = .returned (some 0) ∧ (s.results 1).faulted = true := by
  decide

section Lost

variable {ε τ : Type*} {n k : ℕ} {s : Selection ε τ}

/-- The first `k` producers have been missed, the others have not begun. -/
structure Selection.Missing (n k : ℕ) (s : Selection ε τ) : Prop where
  context : s.context = .processing
  coroutine : s.coroutine = .loop n k
  finished : ∀ j < k, (s.results j).producing = .complete .finished
  fresh : ∀ j, k ≤ j → s.results j = ⟨.new, .complete .build, .holds⟩

/-- The producer publishes its outcome between the load and the compare-exchange. -/
def missingOps (outcome : Outcome ε τ) (k : ℕ) : List (SelectOp ε τ) :=
  [.select, .select, .produce k outcome, .produce k outcome, .select, .select]

theorem run_missingOps {results : ℕ → Candidate ε τ} {faulted : Bool} (hk : k < n)
    (hfresh : results k = ⟨.new, .complete .build, .holds⟩) (outcome : Outcome ε τ) :
    ((selecting ε τ n).run ⟨.processing, results, .loop n k, faulted⟩ (missingOps outcome k)).1 =
      ⟨.processing, Function.update results k
        ⟨⟨⟨.producerDone, .whenAny, some outcome⟩, false, false⟩, .complete .finished, .holds⟩,
        .loop n (k + 1), faulted⟩ := by
  simp [missingOps, Selecting.loop, selecting, Selection.stepCoroutine, Selection.stepProducer,
    Selection.setResult, hk, hfresh, Memory.access, Memory.new, State.new, Memory.build,
    Memory.completeProducer, Memory.setStatus, Memory.setConsumer, Memory.assertDone,
    Producer.next]

theorem Selection.Missing.next (h : s.Missing n k) (hk : k < n) (outcome : Outcome ε τ) :
    ((selecting ε τ n).run s (missingOps outcome k)).1.Missing n (k + 1) := by
  obtain ⟨context, results, coroutine, faulted⟩ := s
  obtain ⟨rfl, rfl, hfinished, hfresh⟩ := h
  rw [run_missingOps hk (hfresh k (Nat.le_refl k))]
  refine ⟨rfl, rfl, fun j hj => ?_, fun j hj => ?_⟩
  · by_cases hjk : j = k
    · simp only [hjk, Function.update_self]
    · simp only [Function.update_of_ne hjk]
      exact hfinished j (by omega)
  · simp only [Function.update_of_ne (show j ≠ k by omega)]
    exact hfresh j (by omega)

theorem Selection.Missing.sleep (h : s.Missing n n) :
    let s' := ((selecting ε τ n).step s .select).1
    s'.coroutine = .suspended ∧ ∀ k < n, (s'.results k).producing = .complete .finished := by
  have hco : s.coroutine = .finish := h.coroutine.trans (if_neg (Nat.lt_irrefl n))
  simp only [selecting, stepCoroutine, h.context, hco, if_true]
  exact ⟨trivial, h.finished⟩

theorem exists_missing (outcome : Outcome ε τ) (hk : k ≤ n) :
    ∃ ops, ((selecting ε τ n).run (.new n) ops).1.Missing n k := by
  induction k with
  | zero => exact ⟨[], rfl, rfl, nofun, fun _ _ => rfl⟩
  | succ k ih =>
    obtain ⟨ops, h⟩ := ih (Nat.le_of_succ_le hk)
    exact ⟨ops ++ missingOps outcome k, by rw [Machine.run_append]; exact h.next hk outcome⟩

end Lost

/-- For any number of results there is a run in which all of them are completed and the coroutine
sleeps, whatever comes behind it. -/
theorem when_any_lost {ε τ : Type*} (outcome : Outcome ε τ) (n : ℕ) :
    ∃ ops, ∀ more, let s := ((selecting ε τ n).run (.new n) (ops ++ more)).1
      s.coroutine = .suspended ∧ ∀ k < n, (s.results k).producing = .complete .finished := by
  obtain ⟨ops, h⟩ := exists_missing outcome (Nat.le_refl n)
  refine ⟨ops ++ [.select], fun more => ?_⟩
  rw [Machine.run_append, Machine.run_append, Machine.run_cons, Machine.run_nil]
  have hsleep := h.sleep
  rw [Machine.run_fixed _ (Selection.step_of_suspended hsleep.1 hsleep.2)]
  exact hsleep

end Plain.Concurrency
