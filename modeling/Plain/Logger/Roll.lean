import Mathlib.Algebra.Group.Int.Defs
import Plain.Foundation.Machine

/-! # Rolling of log files

A log file is closed and a new one opened when it has become too large, or at a check, which
comes with every so many appends. The check asks whether the period of the time is zero, not
whether it is another one than that of the file. The clock is read once for the check and once
more for the roll.
-/

namespace Plain.Log

structure FileConfig where
  rollSize : ℕ
  flushInterval : ℤ
  checkEveryN : ℕ

def kRollPerSeconds : ℤ := 24 * 60 * 60

def period (now : ℤ) : ℤ := now.tdiv kRollPerSeconds * kRollPerSeconds

/-- The members of a file. The bytes are those that the current `FileAppend` has counted, and
there are none for a null pointer; `opened` is the number of files so far. -/
structure File where
  writtenBytes : Option ℕ
  opened : ℕ
  count : ℕ
  startOfPeriod : ℤ
  lastRoll : ℤ
  lastFlush : ℤ
  deriving DecidableEq, Repr

/-- A call of `append`: the size of the text, for each `fwrite` the bytes it writes and whether
there is an error then, and the clock for the check and for the roll. -/
structure Append where
  size : ℕ
  writes : List (ℕ × Bool)
  now : ℤ
  rollNow : ℤ

/-- The loop of `FileAppend::append`, which gives up at an error without counting the last
bytes. -/
def appendLoop (size : ℕ) : List (ℕ × Bool) → ℕ → ℕ
  | [], written => written
  | (n, err) :: writes, written =>
      if written = size then written
      else if n ≠ size - written ∧ err then written
      else appendLoop size writes (written + n)

def Append.written (op : Append) : ℕ := appendLoop op.size op.writes 0

namespace File

def roll (f : File) (now : ℤ) : File :=
  if now > f.lastRoll then
    { f with
      lastRoll := now
      lastFlush := now
      startOfPeriod := period now
      writtenBytes := some 0
      opened := f.opened + 1 }
  else f

/-- An append through a null pointer has no next state. -/
def append (c : FileConfig) (f : File) (op : Append) : Option File := do
  let written := (← f.writtenBytes) + op.written
  let f := { f with writtenBytes := some written }
  if written > c.rollSize then return f.roll op.rollNow
  else
    let f := { f with count := f.count + 1 }
    if f.count ≥ c.checkEveryN then
      let f := { f with count := 0 }
      if period op.now ≠ 0 then return f.roll op.rollNow
      else if op.now - f.lastFlush > c.flushInterval then return { f with lastFlush := op.now }
      else return f
    else return f

/-- A new file rolls at once. -/
def make (now : ℤ) : File := roll ⟨none, 0, 0, 0, 0, 0⟩ now

variable (c : FileConfig)

def bytesAfter (f : File) (op : Append) : ℕ := f.writtenBytes.getD 0 + op.written

def Checks (f : File) (op : Append) : Prop :=
  f.bytesAfter op ≤ c.rollSize ∧ c.checkEveryN ≤ f.count + 1

/-- A new file is due: the bytes exceed the size, or a check comes in another period. -/
def Due (f : File) (op : Append) : Prop :=
  c.rollSize < f.bytesAfter op ∨ (f.Checks c op ∧ period op.now ≠ f.startOfPeriod)

end File

/-- A file and the appends to it, until one of them goes through a null pointer. -/
def fileMachine (c : FileConfig) : Machine (Option File) Append Unit :=
  ⟨fun s op => (s.bind fun f => f.append c op, ())⟩

def Clock : ℤ → List Append → Prop
  | _, [] => True
  | t, op :: ops => t ≤ op.now ∧ op.now ≤ op.rollNow ∧ Clock op.rollNow ops

/-- The append returns, and opens a file only when one is due. -/
def RollsWhenDue (c : FileConfig) (s : Option File) (op : Append) : Prop :=
  ∃ f f', s = some f ∧ f.append c op = some f' ∧ (f'.opened ≠ f.opened → f.Due c op)

/-- A check behind the first day, in the period of the file, comes in the second of its roll. -/
def NoEarlyCheck (c : FileConfig) (s : Option File) (op : Append) : Prop :=
  ∀ f, s = some f → f.Checks c op → period op.now ≠ 0 → period op.now = f.startOfPeriod →
    op.rollNow = f.lastRoll

section Step

variable {c : FileConfig} {f : File} {op : Append} {written : ℕ}

theorem roll_spec {now : ℤ} (hfile : f.writtenBytes ≠ none) (hlast : f.lastRoll ≤ now) :
    (f.roll now).writtenBytes ≠ none ∧ (f.roll now).lastRoll ≤ now ∧
      ((f.roll now).opened ≠ f.opened ↔ now ≠ f.lastRoll) := by
  unfold File.roll
  split
  · next h => exact ⟨nofun, Int.le_refl now, iff_of_true (Nat.succ_ne_self _) (by omega)⟩
  · next h => exact ⟨hfile, hlast, iff_of_false (fun h => h rfl) (by omega)⟩

/-- An append to a file that is there returns. It opens a file only if one is due, except for a
check in the period of the file. -/
theorem append_spec (c : FileConfig) (hfile : f.writtenBytes = some written)
    (hlast : f.lastRoll ≤ op.rollNow) :
    ∃ f', f.append c op = some f' ∧ f'.writtenBytes ≠ none ∧ f'.lastRoll ≤ op.rollNow ∧
      ((f'.opened ≠ f.opened → f.Due c op) ↔ NoEarlyCheck c (some f) op) := by
  have hbytes : f.bytesAfter op = written + op.written := by
    rw [File.bytesAfter, hfile, Option.getD_some]
  have hearly : NoEarlyCheck c (some f) op ↔ (f.Checks c op → period op.now ≠ 0 →
      period op.now = f.startOfPeriod → op.rollNow = f.lastRoll) :=
    ⟨fun h => h f rfl, fun h g hg => Option.some.inj hg ▸ h⟩
  rw [File.append, hfile]
  dsimp only [Option.bind_eq_bind, Option.bind_some]
  by_cases hsize : written + op.written > c.rollSize
  · rw [if_pos hsize]
    obtain ⟨hfile', hlast', -⟩ := roll_spec (f := { f with writtenBytes := some _ })
      (Option.some_ne_none _) hlast
    refine ⟨_, rfl, hfile', hlast', iff_of_true (fun _ => Or.inl (hbytes ▸ hsize)) ?_⟩
    exact hearly.mpr fun h => absurd h.1 (by omega)
  rw [if_neg hsize]
  by_cases hcount : f.count + 1 ≥ c.checkEveryN
  · have hchecks : f.Checks c op := ⟨by omega, hcount⟩
    have hdue : f.Due c op ↔ period op.now ≠ f.startOfPeriod := by
      rw [File.Due, and_iff_right hchecks, or_iff_right (by omega)]
    rw [if_pos hcount]
    by_cases hperiod : period op.now ≠ 0
    · rw [if_pos hperiod]
      obtain ⟨hfile', hlast', hopened⟩ :=
        roll_spec (f := { f with writtenBytes := some _, count := 0 })
          (Option.some_ne_none _) hlast
      refine ⟨_, rfl, hfile', hlast', ?_⟩
      rw [hdue, hearly]
      constructor
      · intro h _ _ hsame
        by_contra hne
        exact h (hopened.mpr hne) hsame
      · intro h hne hsame
        exact hopened.mp hne (h hchecks hperiod hsame)
    · rw [if_neg hperiod]
      have hquiet := hearly.mpr fun _ h => absurd h hperiod
      -- The flush opens no file.
      split <;>
        exact ⟨_, rfl, Option.some_ne_none _, hlast, iff_of_true (fun h => absurd rfl h) hquiet⟩
  · rw [if_neg hcount]
    have hquiet := hearly.mpr fun h => absurd h.2 hcount
    exact ⟨_, rfl, Option.some_ne_none _, hlast, iff_of_true (fun h => absurd rfl h) hquiet⟩

theorem along_rollsWhenDue_iff {t : ℤ} {ops : List Append} (hfile : f.writtenBytes ≠ none)
    (hlast : f.lastRoll ≤ t) (hclock : Clock t ops) :
    (fileMachine c).Along (RollsWhenDue c) (some f) ops ↔
      (fileMachine c).Along (NoEarlyCheck c) (some f) ops := by
  induction ops generalizing f t with
  | nil => exact Iff.rfl
  | cons op ops ih =>
    obtain ⟨hnow, hroll, hclock⟩ := hclock
    obtain ⟨written, hwritten⟩ := Option.ne_none_iff_exists'.mp hfile
    have hroll' : f.lastRoll ≤ op.rollNow := by omega
    obtain ⟨f', happend, hfile', hlast', hdue⟩ := append_spec c hwritten hroll'
    have hstep : RollsWhenDue c (some f) op ↔ NoEarlyCheck c (some f) op := by
      rw [← hdue]
      constructor
      · rintro ⟨g, g', hg, h, h'⟩
        obtain rfl := Option.some.inj hg
        obtain rfl := Option.some.inj (h.symm.trans happend)
        exact h'
      · exact fun h => ⟨f, f', rfl, happend, h⟩
    have hnext : ((fileMachine c).step (some f) op).1 = some f' := happend
    rw [Machine.Along, Machine.Along, hstep, hnext, ih hfile' hlast' hclock]

end Step

/-- Files roll only when they are due exactly if the first one was opened behind the beginning of
time, and every check behind the first day that comes in the period of the file still comes in the
second of its roll. -/
theorem rolls_when_due_iff (c : FileConfig) {t : ℤ} {ops : List Append} (hclock : Clock t ops) :
    (fileMachine c).Along (RollsWhenDue c) (some (File.make t)) ops ↔
      (ops ≠ [] → 0 < t) ∧
        (fileMachine c).Along (NoEarlyCheck c) (some (File.make t)) ops := by
  by_cases ht : 0 < t
  · have hmake : File.make t = ⟨some 0, 1, 0, period t, t, t⟩ := if_pos ht
    rw [hmake, along_rollsWhenDue_iff (Option.some_ne_none _) (Int.le_refl t) hclock,
      and_iff_right fun _ => ht]
  · have hmake : File.make t = ⟨none, 0, 0, 0, 0, 0⟩ := if_neg ht
    rw [hmake]
    cases ops with
    | nil => exact iff_of_true trivial ⟨fun h => absurd rfl h, trivial⟩
    | cons op ops =>
      refine iff_of_false ?_ fun h => ht (h.1 (List.cons_ne_nil _ _))
      rintro ⟨⟨f, f', hf, happend, -⟩, -⟩
      obtain rfl := Option.some.inj hf
      cases happend

def oneByte : Append := ⟨1, [(1, false)], 1700000001, 1700000001⟩

/-- A file of a million bytes, with the numbers that a call may leave out. -/
def defaultFile : FileConfig := ⟨1000000, 3, 1024⟩

/-- A file that is checked with every second append, and rolls at the check of the next day. -/
theorem rolls_when_due_iff_next_day :
    let c : FileConfig := ⟨1000000, 3, 2⟩
    let ops : List Append := [oneByte, ⟨1, [(1, false)], 1700092800, 1700092801⟩]
    Clock 1700000000 ops ∧
      ((fileMachine c).run (some (File.make 1700000000)) ops).1 =
        some ⟨some 0, 2, 0, 1700092800, 1700092801, 1700092801⟩ ∧
      (fileMachine c).Along (RollsWhenDue c) (some (File.make 1700000000)) ops := by
  intro c ops
  have hclock : Clock 1700000000 ops := ⟨by decide, by decide, by decide, by decide, trivial⟩
  have hfirst : ((fileMachine c).step (some (File.make 1700000000)) oneByte).1 =
      some ⟨some 1, 1, 1, 1699920000, 1700000000, 1700000000⟩ := by decide
  refine ⟨hclock, by decide, (rolls_when_due_iff c hclock).mpr ?_⟩
  refine ⟨fun _ => by decide, ?_, ?_, trivial⟩
  · intro f hf hchecks
    obtain rfl := Option.some.inj hf
    exact absurd hchecks.2 (by decide)
  · intro f hf _ _ hsame
    obtain rfl := Option.some.inj (hfirst.symm.trans hf)
    exact absurd hsame (by decide)

/-- A file that rolls at the check of the append number 1024, a second after it was opened: it has
1024 bytes, and the day is the same. -/
theorem file_rolls_within_period :
    ((fileMachine defaultFile).run (some (File.make 1700000000)) (List.replicate 1023 oneByte)).1 =
        some ⟨some 1023, 1, 1023, 1699920000, 1700000000, 1700000000⟩ ∧
      period oneByte.now = 1699920000 ∧
      ((fileMachine defaultFile).run (some (File.make 1700000000))
        (List.replicate 1024 oneByte)).1 =
        some ⟨some 0, 2, 0, 1699920000, 1700000001, 1700000001⟩ := by
  decide +kernel

end Plain.Log
