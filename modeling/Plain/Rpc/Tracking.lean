import Plain.Rpc.Shape

/-! # Failed reads and the error of the decoder

Unpacking is followed with a note whether any read has failed. Reads set the error when
they fail, but a nested object replaces the error by the one of its own decoder. In the
shapes where no such object stands behind a read that may leave bytes, a noted failure
is an error at the end.
-/

namespace Plain.Rpc

open Unpacker

section Tracking

/-- A read, with a note whether any read so far has failed. -/
def step (f : Unpacker → Unpacker) (d : Unpacker × Bool) : Unpacker × Bool :=
  (f d.1, d.2 || decide ((f { d.1 with error := .none }).error = .outOfRange))

namespace Shape

/-- `run`, with a note whether any read has failed, in nested objects too. -/
def exec : Shape → Unpacker × Bool → Unpacker × Bool
  | array s => fun d =>
      Nat.iterate s.exec (unpackSize .array d.1).1.toNat (step (fun u => (unpackSize .array u).2) d)
  | map k v => fun d =>
      Nat.iterate (fun d => v.exec (k.exec d)) (unpackSize .map d.1).1.toNat
        (step (fun u => (unpackSize .map u).2) d)
  | tupleNil => fun d => d
  | tupleCons s t => fun d => t.exec (s.exec d)
  | object s => fun d =>
      let outer := step (fun u => (unpackBytes [] u).2) d
      let inner := s.exec (of (unpackBytes [] d.1).1, false)
      ({ outer.1 with error := inner.1.error }, outer.2 || inner.2)
  | nullptr => step nullptr.run
  | bool => step bool.run
  | int w => step (int w).run
  | uint w => step (uint w).run
  | string => step string.run
  | bytes => step bytes.run

/-- Some read fails while a value of this shape is unpacked from the bytes. -/
def readFails (s : Shape) (bytes : List Byte) : Bool := (s.exec (of bytes, false)).2

theorem iterate_exec_fst {f : Unpacker → Unpacker} {g : Unpacker × Bool → Unpacker × Bool}
    (h : ∀ d, (g d).1 = f d.1) (n : ℕ) (d : Unpacker × Bool) :
    (Nat.iterate g n d).1 = Nat.iterate f n d.1 := by
  induction n generalizing d with
  | zero => rfl
  | succ n ih => exact (ih (g d)).trans (congrArg (Nat.iterate f n) (h d))

theorem exec_fst (s : Shape) (d : Unpacker × Bool) : (s.exec d).1 = s.run d.1 := by
  induction s generalizing d with
  | array s ih => exact iterate_exec_fst ih _ _
  | map k v ihk ihv =>
    exact iterate_exec_fst (f := fun u => v.run (k.run u)) (fun d => by rw [ihv, ihk]) _ _
  | tupleNil => rfl
  | tupleCons s t ihs iht => exact (iht _).trans (congrArg t.run (ihs d))
  | object s ih => simp only [exec, run, step, ih]
  | nullptr => rfl
  | bool => rfl
  | int w => rfl
  | uint w => rfl
  | string => rfl
  | bytes => rfl

end Shape

/-- What a tracked run does in front of the given bytes: it notes the error it sets. -/
structure Notes (hard : Prop) (g : Unpacker × Bool → Unpacker × Bool) (r : List Byte) (o : ℕ)
    (r' : List Byte) (o' : ℕ) (failed : Bool) : Prop where
  eq : ∀ e b, g (⟨r, o, e⟩, b) = (⟨r', o', if failed then .outOfRange else e⟩, b || failed)
  ended : hard → failed = true → r' = []
  valid : o' = 0 ∨ r' = []
  nil : r = [] → r' = []

/-- A run that notes exactly the errors it sets, and clears none. -/
def Tracks (hard : Prop) (g : Unpacker × Bool → Unpacker × Bool) : Prop :=
  ∀ r o, o = 0 ∨ r = [] → ∃ r' o' failed, Notes hard g r o r' o' failed

namespace Tracks

variable {hard : Prop} {β : Type} {f g : Unpacker × Bool → Unpacker × Bool}

theorem id : Tracks hard fun d => d := by
  intro r o hro
  exact ⟨r, o, false, fun e b => by simp, fun _ h => by simp at h, hro, fun h => h⟩

theorem comp (hf : Tracks hard f) (hg : Tracks hard g) : Tracks hard fun d => g (f d) := by
  intro r o hro
  obtain ⟨r₁, o₁, failed₁, h₁⟩ := hf r o hro
  obtain ⟨r₂, o₂, failed₂, h₂⟩ := hg r₁ o₁ h₁.valid
  refine ⟨r₂, o₂, failed₁ || failed₂, fun e b => ?_, fun hh hfail => ?_, h₂.valid,
    fun h => h₂.nil (h₁.nil h)⟩
  · rw [h₁.eq, h₂.eq]
    cases failed₁ <;> cases failed₂ <;> simp
  · rcases Bool.or_eq_true_iff.mp hfail with hfail | hfail
    · exact h₂.nil (h₁.ended hh hfail)
    · exact h₂.ended hh hfail

theorem iterate (hf : Tracks hard f) (n : ℕ) : Tracks hard (Nat.iterate f n) := by
  induction n with
  | zero => exact id
  | succ n ih => exact hf.comp ih

theorem header {h : Unpacker → β × Unpacker} {g : β → Unpacker × Bool → Unpacker × Bool}
    (hh : Reads hard False h) (hg : ∀ v, Tracks hard (g v)) :
    Tracks hard fun d => g (h d.1).1 (step (fun u => (h u).2) d) := by
  intro r o hro
  obtain ⟨v, r₁, o₁, failed, hl⟩ := hh r o hro
  have hstep : Notes hard (step fun u => (h u).2) r o r₁ o₁ failed := by
    refine ⟨fun e b => ?_, hl.ended, hl.valid, hl.nil⟩
    simp only [step, hl.eq]
    cases failed <;> simp
  obtain ⟨r₂, o₂, failed₂, h₂⟩ := hg v r₁ o₁ hl.valid
  refine ⟨r₂, o₂, failed || failed₂, fun e b => ?_, fun hhard hfail => ?_, h₂.valid,
    fun hr => h₂.nil (hl.nil hr)⟩
  · simp only [hl.eq, hstep.eq, h₂.eq]
    cases failed <;> cases failed₂ <;> simp
  · rcases Bool.or_eq_true_iff.mp hfail with hfail | hfail
    · exact h₂.nil (hl.ended hhard hfail)
    · exact h₂.ended hhard hfail

theorem step {f : Unpacker → Unpacker} (hf : Reads hard False fun u => ((), f u)) :
    Tracks hard (Rpc.step f) :=
  header hf (g := fun _ d => d) fun _ => id

end Tracks

theorem tracks_exec {hard : Prop} {s : Shape} (hobj : s.objectFree = true)
    (hh : hard → s.soft = false) : Tracks hard s.exec := by
  induction s with
  | array s ih =>
    exact Tracks.header (Reads.unpackSize .array)
      (g := fun n => Nat.iterate s.exec n.toNat) fun n => (ih hobj hh).iterate n.toNat
  | map k v ihk ihv =>
    simp only [Shape.objectFree, Shape.soft, Bool.and_eq_true, Bool.or_eq_false_iff] at hobj hh
    have hentry := (ihk hobj.1 fun h => (hh h).1).comp (ihv hobj.2 fun h => (hh h).2)
    exact Tracks.header (Reads.unpackSize .map)
      (g := fun n => Nat.iterate (fun d => v.exec (k.exec d)) n.toNat)
      fun n => hentry.iterate n.toNat
  | tupleNil => exact Tracks.id
  | tupleCons s t ihs iht =>
    simp only [Shape.objectFree, Shape.soft, Bool.and_eq_true, Bool.or_eq_false_iff] at hobj hh
    exact (ihs hobj.1 fun h => (hh h).1).comp (iht hobj.2 fun h => (hh h).2)
  | object s => simp [Shape.objectFree] at hobj
  | nullptr => exact Tracks.step (reads_run hobj hh False.elim)
  | bool => exact Tracks.step (reads_run hobj hh False.elim)
  | int w => exact Tracks.step (reads_run hobj hh False.elim)
  | uint w => exact Tracks.step (reads_run hobj hh False.elim)
  | string => exact Tracks.step (reads_run hobj hh False.elim)
  | bytes => exact Tracks.step (reads_run hobj hh False.elim)

end Tracking

namespace Shape

def reads : Shape → Bool
  | tupleNil => false
  | tupleCons s t => s.reads || t.reads
  | _ => true

/-- An object is unpacked behind no read that can fail in front of bytes, and has a
field that is read. -/
def good : Shape → Bool
  | array s => s.objectFree
  | map k v => k.objectFree && v.objectFree
  | tupleCons s t => s.good && t.good && (!s.soft || t.objectFree)
  | object s => s.good && s.reads
  | _ => true

end Shape

section Sufficient

variable {s : Shape} {e : ErrorCode} {o : ℕ} {b : Bool}

theorem iterate_keeps {δ : Type} {p : δ → Prop} {g : δ → δ} (h : ∀ d, p d → p (g d)) (n : ℕ) :
    ∀ d, p d → p (Nat.iterate g n d) := by
  induction n with
  | zero => exact fun _ hd => hd
  | succ n ih => exact fun d hd => ih (g d) (h d hd)

theorem step_noted {f : Unpacker → Unpacker} {d : Unpacker × Bool} (hd : d.2 = true) :
    (step f d).2 = true := by
  rw [step, hd, Bool.true_or]

theorem exec_noted (s : Shape) : ∀ d : Unpacker × Bool, d.2 = true → (s.exec d).2 = true := by
  induction s with
  | array s ih => exact fun d hd => iterate_keeps ih _ _ (step_noted hd)
  | map k v ihk ihv =>
    have hentry (d : Unpacker × Bool) (hd : d.2 = true) : (v.exec (k.exec d)).2 = true :=
      ihv _ (ihk d hd)
    exact fun d hd => iterate_keeps hentry _ _ (step_noted hd)
  | tupleNil => exact fun _ hd => hd
  | tupleCons s t ihs iht => exact fun d hd => iht _ (ihs d hd)
  | object s =>
    intro d hd
    simp only [Shape.exec, step_noted hd, Bool.true_or]
  | nullptr => exact fun _ => step_noted
  | bool => exact fun _ => step_noted
  | int w => exact fun _ => step_noted
  | uint w => exact fun _ => step_noted
  | string => exact fun _ => step_noted
  | bytes => exact fun _ => step_noted

theorem run_keeps {p : Unpacker → Prop}
    (hread : ∀ {β : Type} {f : Unpacker → β × Unpacker}, Reads False False f →
      ∀ u, p u → p (f u).2)
    (herror : ∀ u e, p u → p { u with error := e }) (s : Shape) : ∀ u, p u → p (s.run u) := by
  induction s with
  | array s ih => exact fun u hu => iterate_keeps ih _ _ (hread (Reads.unpackSize .array) u hu)
  | map k v ihk ihv =>
    have hentry (u : Unpacker) (hu : p u) : p (v.run (k.run u)) := ihv _ (ihk u hu)
    exact fun u hu => iterate_keeps hentry _ _ (hread (Reads.unpackSize .map) u hu)
  | tupleNil => exact fun _ hu => hu
  | tupleCons s t ihs iht => exact fun u hu => iht _ (ihs u hu)
  | object s => exact fun u hu => herror _ _ (hread (Reads.unpackBytes []) u hu)
  | nullptr => exact hread (Reads.increment ())
  | bool => exact hread Reads.dataIncrement
  | int w => exact hread (Reads.unpackInt w 0)
  | uint w => exact hread (Reads.unpackUint w 0)
  | string => exact hread (Reads.unpackString [])
  | bytes => exact hread (Reads.unpackBytes [])

theorem run_nil (s : Shape) {u : Unpacker} (hu : u.rest = []) : (s.run u).rest = [] := by
  refine run_keeps (p := fun u => u.rest = []) ?_ (fun _ _ h => h) s u hu
  rintro β f hf ⟨r, o, e⟩ rfl
  obtain ⟨v, r', o', failed, h⟩ := hf [] o (Or.inr rfl)
  rw [h.eq]
  exact h.nil rfl

theorem run_valid (s : Shape) {u : Unpacker} (hu : u.overrun = 0 ∨ u.rest = []) :
    (s.run u).overrun = 0 ∨ (s.run u).rest = [] := by
  refine run_keeps (p := fun u => u.overrun = 0 ∨ u.rest = []) ?_ (fun _ _ h => h) s u hu
  rintro β f hf ⟨r, o, e⟩ hro
  obtain ⟨v, r', o', failed, h⟩ := hf r o hro
  rw [h.eq]
  exact h.valid

theorem step_nil {β : Type} {f : Unpacker → β × Unpacker} (hf : Reads False False f)
    (hdata : ∀ o e, f ⟨[], o, e⟩ = f ⟨[], o, .outOfRange⟩) {d : Unpacker × Bool}
    (hd : d.1.rest = []) : (step (fun u => (f u).2) d).2 = true := by
  obtain ⟨⟨r, o, e⟩, b⟩ := d
  obtain rfl : r = [] := hd
  obtain ⟨v, r', o', failed, h⟩ := hf [] o (Or.inr rfl)
  simp only [step, hdata o .none, h.eq, ite_self, decide_true, Bool.or_true]

theorem exec_nil (s : Shape) (hs : s.reads = true) :
    ∀ d : Unpacker × Bool, d.1.rest = [] → (s.exec d).2 = true := by
  have hnoted {p : Unpacker × Bool → Unpacker × Bool} (hp : ∀ d, d.2 = true → (p d).2 = true)
      (n : ℕ) {d : Unpacker × Bool} (hd : d.2 = true) : (Nat.iterate p n d).2 = true :=
    iterate_keeps hp n d hd
  induction s with
  | array s =>
    exact fun d hd => hnoted (exec_noted s) _
      (step_nil (Reads.unpackSize .array) (fun _ _ => rfl) hd)
  | map k v =>
    exact fun d hd => hnoted (fun d hd => exec_noted v _ (exec_noted k d hd)) _
      (step_nil (Reads.unpackSize .map) (fun _ _ => rfl) hd)
  | tupleNil => simp [Shape.reads] at hs
  | tupleCons s t ihs iht =>
    intro d hd
    rcases Bool.or_eq_true_iff.mp hs with hs | ht
    · exact exec_noted t _ (ihs hs d hd)
    · refine iht ht _ ?_
      rw [Shape.exec_fst]
      exact run_nil s hd
  | object s =>
    intro d hd
    have h := step_nil (Reads.unpackBytes []) (fun _ _ => rfl) hd
    simp only [Shape.exec, h, Bool.true_or]
  | nullptr =>
    rintro ⟨⟨r, o, e⟩, b⟩ rfl
    simp [Shape.exec, step, Shape.run, increment]
  | bool =>
    intro d hd
    exact step_nil Reads.dataIncrement (fun _ _ => rfl) hd
  | int w =>
    intro d hd
    exact step_nil (Reads.unpackInt w 0) (fun _ _ => by cases w <;> rfl) hd
  | uint w =>
    intro d hd
    exact step_nil (Reads.unpackUint w 0) (fun _ _ => by cases w <;> rfl) hd
  | string => exact fun d hd => step_nil (Reads.unpackString []) (fun _ _ => rfl) hd
  | bytes => exact fun d hd => step_nil (Reads.unpackBytes []) (fun _ _ => rfl) hd

theorem takeBytes_nil (size : ℕ) {u : Unpacker} (hu : u.rest = []) :
    (takeBytes size [] u).1 = [] := by
  rw [takeBytes]
  split
  · rw [hu, List.take_nil]
  · rfl

theorem unpackBytes_nil {u : Unpacker} (hu : u.rest = []) : (unpackBytes [] u).1 = [] := by
  obtain ⟨r, o, e⟩ := u
  have hsize : Reads True True binSize := Reads.binSize
  obtain ⟨n, r', o', failed, h⟩ := hsize r o (Or.inr hu)
  change (takeBytes (binSize ⟨r, o, e⟩).1.toNat [] (binSize ⟨r, o, e⟩).2).1 = []
  rw [h.eq]
  exact takeBytes_nil _ (h.nil hu)

theorem unpackBytes_failed {r v r' : List Byte} {o' : ℕ} (hro : o = 0 ∨ r = [])
    (h : Leads False False (unpackBytes []) r o v r' o' true) : v = [] := by
  have hsize : Reads True True binSize := Reads.binSize
  obtain ⟨n, r₁, o₁, failed, hl⟩ := hsize r o hro
  have heq : takeBytes n.toNat [] ⟨r₁, o₁, if failed then .outOfRange else .none⟩ =
      (v, ⟨r', o', .outOfRange⟩) := by
    have heq : takeBytes (binSize ⟨r, o, .none⟩).1.toNat [] (binSize ⟨r, o, .none⟩).2 = _ :=
      h.eq .none
    rwa [hl.eq] at heq
  cases failed with
  | true => exact (congrArg Prod.fst heq).symm.trans (takeBytes_nil _ (hl.ended trivial rfl))
  | false =>
    by_cases hc : o₁ = 0 ∧ n.toNat ≤ r₁.length
    · simp [takeBytes, increment, hc] at heq
    · rw [takeBytes, if_neg hc] at heq
      exact (congrArg Prod.fst heq).symm

theorem objectFree_of_not_soft (hs : s.soft = false) : s.objectFree = true := by
  induction s with
  | array s ih => exact ih hs
  | map k v ihk ihv =>
    obtain ⟨hk, hv⟩ := Bool.or_eq_false_iff.mp hs
    exact Bool.and_eq_true_iff.mpr ⟨ihk hk, ihv hv⟩
  | tupleCons s t ihs iht =>
    obtain ⟨hs, ht⟩ := Bool.or_eq_false_iff.mp hs
    exact Bool.and_eq_true_iff.mpr ⟨ihs hs, iht ht⟩
  | object s => simp [Shape.soft] at hs
  | _ => rfl

theorem objectFree_spec {u : Unpacker} (hobj : s.objectFree = true)
    (hu : u.overrun = 0 ∨ u.rest = []) :
    ((s.exec (u, false)).2 = true → (s.run u).error = .outOfRange ∧
      (s.soft = false → (s.run u).rest = [])) ∧
    (u.error = .outOfRange → (s.run u).error = .outOfRange) := by
  obtain ⟨r, o, e⟩ := u
  have htracks : Tracks (s.soft = false) s.exec := tracks_exec hobj fun h => h
  obtain ⟨r', o', failed, h⟩ := htracks r o hu
  rw [← Shape.exec_fst s (⟨r, o, e⟩, false), h.eq]
  refine ⟨fun hfail => ?_, fun he => ?_⟩
  · obtain rfl : failed = true := hfail
    exact ⟨rfl, fun hsoft => h.ended hsoft rfl⟩
  · simp only at he
    simp only [he, ite_self]

/-- In a good shape, an error is there at the end if a read has failed, and stays there
at the end of the input. -/
theorem good_spec (hs : s.good = true) :
    (∀ u : Unpacker, u.overrun = 0 ∨ u.rest = [] → (s.exec (u, false)).2 = true →
      (s.run u).error = .outOfRange) ∧
    ∀ u : Unpacker, u.rest = [] → u.error = .outOfRange → (s.run u).error = .outOfRange := by
  have hfree {s : Shape} (hobj : s.objectFree = true) :
      (∀ u : Unpacker, u.overrun = 0 ∨ u.rest = [] → (s.exec (u, false)).2 = true →
        (s.run u).error = .outOfRange) ∧
      ∀ u : Unpacker, u.rest = [] → u.error = .outOfRange → (s.run u).error = .outOfRange :=
    ⟨fun u hu hfail => ((objectFree_spec hobj hu).1 hfail).1,
      fun u hu he => (objectFree_spec hobj (Or.inr hu)).2 he⟩
  induction s with
  | array s => exact hfree hs
  | map k v => exact hfree hs
  | tupleCons s t ihs iht =>
    simp only [Shape.good, Bool.and_eq_true, Bool.or_eq_true, Bool.not_eq_true'] at hs
    obtain ⟨⟨hs, ht⟩, hst⟩ := hs
    refine ⟨fun u hu hfail => ?_, fun u hu he => ?_⟩
    · have hfst := Shape.exec_fst s (u, false)
      have hvalid := run_valid s hu
      cases hd : (s.exec (u, false)).2 with
      | false =>
        have hexec : s.exec (u, false) = (s.run u, false) := Prod.ext hfst hd
        refine (iht ht).1 (s.run u) hvalid ?_
        rw [← hexec]
        exact hfail
      | true =>
        have herror := (ihs hs).1 u hu hd
        rcases hst with hsoft | hobj
        · have hspec := objectFree_spec (objectFree_of_not_soft hsoft) hu
          exact (iht ht).2 (s.run u) ((hspec.1 hd).2 hsoft) herror
        · exact (objectFree_spec hobj hvalid).2 herror
    · exact (iht ht).2 _ (run_nil s hu) ((ihs hs).2 u hu he)
  | object s ih =>
    simp only [Shape.good, Bool.and_eq_true] at hs
    obtain ⟨hs, hreads⟩ := hs
    refine ⟨?_, fun u hu he => ?_⟩
    · rintro ⟨r, o, e⟩ hro hfail
      obtain ⟨v, r', o', failed, h⟩ := Reads.unpackBytes [] r o hro
      refine (ih hs).1 (of (unpackBytes [] ⟨r, o, e⟩).1) (Or.inl rfl) ?_
      cases failed with
      | true =>
        rw [h.eq, unpackBytes_failed hro h]
        exact exec_nil s hreads _ rfl
      | false =>
        simp only [Shape.exec, step, h.eq] at hfail ⊢
        simpa using hfail
    · refine (ih hs).1 (of (unpackBytes [] u).1) (Or.inl rfl) ?_
      rw [unpackBytes_nil hu]
      exact exec_nil s hreads _ rfl
  | _ => exact hfree rfl

end Sufficient

end Plain.Rpc
