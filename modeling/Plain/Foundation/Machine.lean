import Mathlib.Data.Nat.Notation
import Mathlib.Data.List.Basic

/-! # Machines and their runs

A machine answers every operation and moves to a next state. A run is guarded
when each of its steps meets a condition on the state before it. Invariants and
simulations are proved for one guarded step and hold along guarded runs.
-/

namespace Plain

/-- A deterministic component: an operation changes the state and gives an answer. -/
structure Machine (σ ι ο : Type*) where
  step : σ → ι → σ × ο

namespace Machine

variable {σ τ ι ο : Type*}

/-- The final state and the answers of a list of operations. -/
def run (M : Machine σ ι ο) : σ → List ι → σ × List ο
  | s, [] => (s, [])
  | s, i :: is =>
      let r := M.step s i
      let t := M.run r.1 is
      (t.1, r.2 :: t.2)

/-- Each operation of the list meets `ok` in the state it is applied to. -/
def Along (M : Machine σ ι ο) (ok : σ → ι → Prop) : σ → List ι → Prop
  | _, [] => True
  | s, i :: is => ok s i ∧ M.Along ok (M.step s i).1 is

instance instDecidableAlong (M : Machine σ ι ο) (ok : σ → ι → Prop)
    [∀ s i, Decidable (ok s i)] : ∀ s is, Decidable (M.Along ok s is)
  | _, [] => .isTrue trivial
  | s, i :: is =>
      have := instDecidableAlong M ok (M.step s i).1 is
      inferInstanceAs (Decidable (ok s i ∧ M.Along ok (M.step s i).1 is))

variable (M : Machine σ ι ο) (N : Machine τ ι ο)

@[simp] theorem run_nil (s : σ) : M.run s [] = (s, []) := rfl

@[simp] theorem run_cons (s : σ) (i : ι) (is : List ι) :
    M.run s (i :: is) =
      ((M.run (M.step s i).1 is).1, (M.step s i).2 :: (M.run (M.step s i).1 is).2) := rfl

theorem run_append (s : σ) (is js : List ι) :
    (M.run s (is ++ js)).1 = (M.run (M.run s is).1 js).1 := by
  induction is generalizing s with
  | nil => rfl
  | cons i is ih => exact ih (M.step s i).1

theorem run_fixed {s : σ} (h : ∀ i, (M.step s i).1 = s) (is : List ι) : (M.run s is).1 = s := by
  induction is with
  | nil => rfl
  | cons i is ih => rw [run_cons, h, ih]

theorem along_of_forall {ok : σ → ι → Prop} (h : ∀ s i, ok s i) {s : σ} {is : List ι} :
    M.Along ok s is := by
  induction is generalizing s with
  | nil => exact trivial
  | cons i is ih => exact ⟨h s i, ih⟩

theorem along_of_forall_mem {ok : ι → Prop} {s : σ} {is : List ι} (h : ∀ i ∈ is, ok i) :
    M.Along (fun _ => ok) s is := by
  induction is generalizing s with
  | nil => exact trivial
  | cons i is ih =>
    rw [List.forall_mem_cons] at h
    exact ⟨h.1, ih h.2⟩

theorem along_and {ok ok' : σ → ι → Prop} {s : σ} {is : List ι} :
    M.Along (fun s i => ok s i ∧ ok' s i) s is ↔ M.Along ok s is ∧ M.Along ok' s is := by
  induction is generalizing s with
  | nil => simp [Along]
  | cons i is ih =>
    simp only [Along, ih]
    exact and_and_and_comm

/-- A property kept by every guarded step holds at the end of every guarded run. -/
theorem run_invariant {P : σ → Prop} {ok : σ → ι → Prop}
    (hstep : ∀ s i, P s → ok s i → P (M.step s i).1) {s : σ} {is : List ι}
    (hs : P s) (hok : M.Along ok s is) : P (M.run s is).1 := by
  induction is generalizing s with
  | nil => exact hs
  | cons i is ih => exact ih (hstep s i hs hok.1) hok.2

theorem run_keeps {P : σ → Prop} (hstep : ∀ s i, P s → P (M.step s i).1) {s : σ} (hs : P s)
    (is : List ι) : P (M.run s is).1 :=
  M.run_invariant (fun s i h _ => hstep s i h) hs (M.along_of_forall fun _ _ => trivial)

theorem along_of_invariant {I : σ → Prop} {pre ok : σ → ι → Prop}
    (hinv : ∀ s i, I s → pre s i → I (M.step s i).1) (hok : ∀ s i, I s → pre s i → ok s i)
    {s : σ} {is : List ι} (hI : I s) (hpre : M.Along pre s is) : M.Along ok s is := by
  induction is generalizing s with
  | nil => exact trivial
  | cons i is ih => exact ⟨hok s i hI hpre.1, ih (hinv s i hI hpre.1) hpre.2⟩

/-- Where an invariant is kept, a property holds in every state of a run exactly when each
step meets what makes it keep the property. -/
theorem run_always_iff_of_invariant {I P : σ → Prop} {pre ok : σ → ι → Prop}
    (hinv : ∀ s i, I s → pre s i → I (M.step s i).1)
    (hstep : ∀ s i, I s → pre s i → P s → (P (M.step s i).1 ↔ ok s i)) {s : σ} {is : List ι}
    (hI : I s) (hs : P s) (hpre : M.Along pre s is) :
    (∀ n, P (M.run s (is.take n)).1) ↔ M.Along ok s is := by
  induction is generalizing s with
  | nil => simpa [Along] using hs
  | cons i is ih =>
    have hI' := hinv s i hI hpre.1
    constructor
    · intro h
      have hs' : P (M.step s i).1 := h 1
      exact ⟨(hstep s i hI hpre.1 hs).mp hs', (ih hI' hs' hpre.2).mp fun n => h (n + 1)⟩
    · rintro ⟨hi, hrest⟩ n
      have hs' := (hstep s i hI hpre.1 hs).mpr hi
      cases n with
      | zero => exact hs
      | succ n => exact (ih hI' hs' hpre.2).mpr hrest n

/-- A property holds in every state of a run exactly when each step meets what makes it keep
the property. -/
theorem run_always_iff {P : σ → Prop} {ok : σ → ι → Prop}
    (hstep : ∀ s i, P s → (P (M.step s i).1 ↔ ok s i)) {s : σ} (hs : P s) (is : List ι) :
    (∀ n, P (M.run s (is.take n)).1) ↔ M.Along ok s is :=
  M.run_always_iff_of_invariant (I := fun _ => True) (fun _ _ _ _ => trivial)
    (fun s i _ _ => hstep s i) trivial hs (M.along_of_forall fun _ _ => trivial)

/-- The machine with a note beside its state, which each operation updates. -/
def noting {ν : Type*} (note : σ → ν → ι → ν) : Machine (σ × ν) ι ο where
  step s i := (((M.step s.1 i).1, note s.1 s.2 i), (M.step s.1 i).2)

section Noting

variable {ν : Type*}

theorem run_noting_fst (note : σ → ν → ι → ν) (s : σ × ν) (is : List ι) :
    ((M.noting note).run s is).1.1 = (M.run s.1 is).1 := by
  induction is generalizing s with
  | nil => rfl
  | cons i is ih => exact ih ((M.noting note).step s i).1

theorem run_noting_snd (note : ν → ι → ν) (s : σ × ν) (is : List ι) :
    ((M.noting fun _ => note).run s is).1.2 = is.foldl note s.2 := by
  induction is generalizing s with
  | nil => rfl
  | cons i is ih => exact ih ((M.noting fun _ => note).step s i).1

theorem along_noting (note : σ → ν → ι → ν) {ok : σ → ι → Prop} {s : σ × ν} {is : List ι} :
    (M.noting note).Along (fun s i => ok s.1 i) s is ↔ M.Along ok s.1 is := by
  induction is generalizing s with
  | nil => exact Iff.rfl
  | cons i is ih => exact and_congr_right fun _ => ih

/-- A relation to the operations so far holds in every state of a run exactly when each step
meets what makes it keep the relation. -/
theorem run_history_iff {note : ν → ι → ν} {P : σ → ν → Prop} {ok : σ → ι → Prop}
    (hstep : ∀ s v i, P s v → (P (M.step s i).1 (note v i) ↔ ok s i)) {s : σ} {v : ν}
    (hs : P s v) (is : List ι) :
    (∀ n, P (M.run s (is.take n)).1 ((is.take n).foldl note v)) ↔ M.Along ok s is := by
  have h := (M.noting fun _ => note).run_always_iff (P := fun s => P s.1 s.2)
    (fun s i => hstep s.1 s.2 i) (s := (s, v)) hs is
  simpa only [run_noting_fst, run_noting_snd, along_noting] using h

end Noting

/-- Guarded steps of `M` that `N` can match make the whole runs answer alike. -/
theorem run_simulates {R : σ → τ → Prop} {ok : σ → ι → Prop}
    (hstep : ∀ s t i, R s t → ok s i →
      R (M.step s i).1 (N.step t i).1 ∧ (M.step s i).2 = (N.step t i).2)
    {s : σ} {t : τ} {is : List ι} (hst : R s t) (hok : M.Along ok s is) :
    R (M.run s is).1 (N.run t is).1 ∧ (M.run s is).2 = (N.run t is).2 := by
  induction is generalizing s t with
  | nil => exact ⟨hst, rfl⟩
  | cons i is ih =>
    obtain ⟨hr, ho⟩ := hstep s t i hst hok.1
    obtain ⟨hr', ho'⟩ := ih hr hok.2
    exact ⟨hr', by simp only [run_cons, ho, ho']⟩

/-- Two machines that stay related whatever happens answer alike in exactly the runs whose
steps meet what makes a single answer agree. -/
theorem run_answers_eq_iff {R : σ → τ → Prop} {ok : σ → ι → Prop}
    (hstep : ∀ s t i, R s t → R (M.step s i).1 (N.step t i).1 ∧
      ((M.step s i).2 = (N.step t i).2 ↔ ok s i))
    {s : σ} {t : τ} (hst : R s t) (is : List ι) :
    R (M.run s is).1 (N.run t is).1 ∧ ((M.run s is).2 = (N.run t is).2 ↔ M.Along ok s is) := by
  induction is generalizing s t with
  | nil => exact ⟨hst, by simp [Along]⟩
  | cons i is ih =>
    obtain ⟨hr, ho⟩ := hstep s t i hst
    obtain ⟨hr', ho'⟩ := ih hr
    refine ⟨hr', ?_⟩
    rw [run_cons, run_cons, List.cons_eq_cons, ho, ho']
    rfl

theorem run_answers_iff {ok : σ → ι → Prop} {Q : ο → Prop}
    (hstep : ∀ s i, Q (M.step s i).2 ↔ ok s i) (s : σ) (is : List ι) :
    (∀ o ∈ (M.run s is).2, Q o) ↔ M.Along ok s is := by
  induction is generalizing s with
  | nil => simp [Along]
  | cons i is ih =>
    rw [run_cons, List.forall_mem_cons, hstep, ih]
    rfl

/-- A relation between answers and states that holds when an answer is given, and is kept
by every later step, holds of all answers at the end of the run. -/
theorem run_answers_stable {P : σ → Prop} {R : ο → σ → Prop}
    (hinv : ∀ s i, P s → P (M.step s i).1)
    (hnew : ∀ s i, P s → R (M.step s i).2 (M.step s i).1)
    (hkeep : ∀ s i o, R o s → R o (M.step s i).1) {s : σ} (hs : P s) (is : List ι) :
    ∀ o ∈ (M.run s is).2, R o (M.run s is).1 := by
  have hrun : ∀ (is : List ι) (s : σ) (o : ο), R o s → R o (M.run s is).1 := by
    intro is
    induction is with
    | nil => exact fun _ _ h => h
    | cons i is ih => exact fun s o h => ih _ o (hkeep s i o h)
  induction is generalizing s with
  | nil => simp
  | cons i is ih =>
    rw [run_cons, List.forall_mem_cons]
    exact ⟨hrun is _ _ (hnew s i hs), ih (hinv s i hs)⟩

section Once

variable {M} {p : ο → Bool} (Done : σ → Prop)

theorem run_countP_eq_zero
    (hdone : ∀ s i, Done s → Done (M.step s i).1 ∧ p (M.step s i).2 = false) {s : σ}
    (hs : Done s) (is : List ι) : (M.run s is).2.countP p = 0 := by
  induction is generalizing s with
  | nil => rfl
  | cons i is ih =>
    obtain ⟨hs', hp⟩ := hdone s i hs
    rw [run_cons, List.countP_cons_of_neg (by simp [hp])]
    exact ih hs'

/-- An answer that leads to a state after which it is not given again is given at most
once. -/
theorem run_countP_le_one
    (hdone : ∀ s i, Done s → Done (M.step s i).1 ∧ p (M.step s i).2 = false)
    (honce : ∀ s i, p (M.step s i).2 = true → Done (M.step s i).1) (s : σ) (is : List ι) :
    (M.run s is).2.countP p ≤ 1 := by
  induction is generalizing s with
  | nil => exact Nat.zero_le 1
  | cons i is ih =>
    rw [run_cons]
    by_cases hp : p (M.step s i).2 = true
    · have hrest := run_countP_eq_zero Done hdone (honce s i hp) is
      exact Nat.le_of_eq (by rw [List.countP_cons_of_pos hp, hrest])
    · rw [List.countP_cons_of_neg hp]
      exact ih _

theorem run_countP_segment {ok : σ → ι → Prop} {q : ο → Prop}
    (hdone : ∀ s i, ok s i → ¬ q (M.step s i).2 → Done s →
      Done (M.step s i).1 ∧ p (M.step s i).2 = false)
    (honce : ∀ s i, ok s i → p (M.step s i).2 = true → Done (M.step s i).1) {s : σ} {is : List ι}
    (hok : M.Along ok s is) {mid post : List ο} (hrun : (M.run s is).2 = mid ++ post)
    (hq : ∀ o ∈ mid, ¬ q o) : mid.countP p ≤ 1 ∧ (Done s → mid.countP p = 0) := by
  induction is generalizing s mid with
  | nil =>
    obtain ⟨rfl, _⟩ := List.append_eq_nil_iff.mp hrun.symm
    simp
  | cons i is ih =>
    cases mid with
    | nil => simp
    | cons o mid =>
      rw [run_cons, List.cons_append, List.cons_eq_cons] at hrun
      obtain ⟨rfl, hrun⟩ := hrun
      rw [List.forall_mem_cons] at hq
      obtain ⟨hle, hzero⟩ := ih hok.2 hrun hq.2
      by_cases hp : p (M.step s i).2 = true
      · rw [List.countP_cons_of_pos hp, hzero (honce s i hok.1 hp)]
        refine ⟨Nat.le_refl 1, fun hs => ?_⟩
        have := (hdone s i hok.1 hq.1 hs).2
        simp [hp] at this
      · rw [List.countP_cons_of_neg hp]
        exact ⟨hle, fun hs => hzero (hdone s i hok.1 hq.1 hs).1⟩

/-- An answer is given at most once in every segment of a guarded run that does not give the
permission back. -/
theorem run_countP_between {ok : σ → ι → Prop} {q : ο → Prop}
    (hdone : ∀ s i, ok s i → ¬ q (M.step s i).2 → Done s →
      Done (M.step s i).1 ∧ p (M.step s i).2 = false)
    (honce : ∀ s i, ok s i → p (M.step s i).2 = true → Done (M.step s i).1) {s : σ} {is : List ι}
    (hok : M.Along ok s is) {pre mid post : List ο} (hrun : (M.run s is).2 = pre ++ mid ++ post)
    (hq : ∀ o ∈ mid, ¬ q o) : mid.countP p ≤ 1 := by
  induction is generalizing s pre with
  | nil =>
    obtain ⟨h, _⟩ := List.append_eq_nil_iff.mp hrun.symm
    obtain ⟨_, rfl⟩ := List.append_eq_nil_iff.mp h
    simp
  | cons i is ih =>
    cases pre with
    | nil => exact (run_countP_segment Done hdone honce hok hrun hq).1
    | cons o pre =>
      simp only [run_cons, List.cons_append, List.cons_eq_cons] at hrun
      exact ih hok.2 hrun.2

end Once

end Machine

end Plain
