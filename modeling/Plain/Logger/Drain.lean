import Plain.Logger.Async
import Plain.Ring.Fixed

/-! # What the logger has written

Every message is in the file, with the worker or in the buffers of the callers, in the
order of the appends. When the worker ends, what the callers' buffers still hold is lost.
-/

namespace Plain.Log

open Plain.Ring Circular

variable {SIZE : Capacity}

section Buffers

def Linear (SIZE : Capacity) (buf : Buffer) : Prop := buf.Wf (.fixedRing SIZE) ∧ buf.tail = 0

def Spare (SIZE : Capacity) (p : Option Buffer) : Prop :=
  ∃ buf, p = some buf ∧ Linear SIZE buf ∧ buf.contents = []

def stored (SIZE : Capacity) (log : List Byte) : List Byte := log.take SIZE.val.toNat

variable {buf : Buffer}

theorem linear_new : Linear SIZE (newBuffer SIZE) := ⟨wf_make _, rfl⟩

theorem contents_new : contents (newBuffer SIZE) = [] := contents_make

theorem spare_new : Spare SIZE (some (newBuffer SIZE)) :=
  ⟨_, rfl, linear_new, contents_new⟩

theorem spare_producerClear (h : Linear SIZE buf) : Spare SIZE (some buf.producerClear) :=
  ⟨_, rfl, ⟨wf_consumerClear h.1, rfl⟩, contents_consumerClear⟩

theorem tail_copyIn (buf : Buffer) (log : List Byte) : (buf.copyIn log).tail = buf.tail := by
  induction log generalizing buf with
  | nil => rfl
  | cons b log ih => exact ih (buf.push b)

theorem write_spec (h : Linear SIZE buf) {log : List Byte} (hsized : log.length < 2 ^ 64) :
    Linear SIZE (buf.write (.fixedRing SIZE) log false).2 ∧
      (buf.write (.fixedRing SIZE) log false).2.contents =
        buf.contents ++ log.take (SIZE.val.toNat - buf.contents.length) := by
  obtain ⟨hw, hc, _⟩ := write_fixed_spec h.1 hsized false
  refine ⟨⟨hw, ?_⟩, ?_⟩
  · rw [write_fixed h.1 hsized, if_neg (by simp), tail_copyIn, h.2]
  · rw [BoundedQueue.write, if_neg (by simp)] at hc
    exact hc

theorem text_eq (h : Linear SIZE buf) : text buf = buf.contents := by
  obtain ⟨hw, htail⟩ := h
  have hused := hw.used_le
  have hlen := hw.size_le_length
  have hcell : (buf.tail &&& buf.mask).toNat = 0 := by
    rw [htail]
    simp
  have hzero : buf.tail.toNat = 0 := by
    rw [htail]
    rfl
  rw [text, contents, hcell, hzero, List.drop_zero, window_eq_take hused (by omega)]

end Buffers

namespace AsyncLogger

variable {s : AsyncLogger}

/-- The buffers are where the callers and the worker expect them. -/
structure Wf (SIZE : Capacity) (s : AsyncLogger) : Prop where
  current : ∃ buf, s.currentBuffer = some buf ∧ Linear SIZE buf
  next : s.nextBuffer = none ∧ s.buffers ≠ [] ∨ Spare SIZE s.nextBuffer
  buffers : ∀ buf ∈ s.buffers, Linear SIZE buf
  parked : s.worker ≠ .write →
    Spare SIZE s.buffer1 ∧ Spare SIZE s.buffer2 ∧ s.writeBuffers = []
  writing : s.worker = .write → s.buffer1 = none ∧ s.writeBuffers ≠ [] ∧
    (∀ buf ∈ s.writeBuffers, Linear SIZE buf) ∧
    (s.buffer2 = none ∧ 2 ≤ s.writeBuffers.length ∨ Spare SIZE s.buffer2)

def pending (s : AsyncLogger) : List Byte :=
  (s.buffers ++ s.currentBuffer.toList).flatMap contents

theorem wf_start : (start SIZE).Wf SIZE where
  current := ⟨_, rfl, linear_new⟩
  next := Or.inr spare_new
  buffers := by simp [start]
  parked _ := ⟨spare_new, spare_new, rfl⟩
  writing h := by simp [start] at h

theorem append_spec (h : s.Wf SIZE) {log : List Byte} (hsized : log.length < 2 ^ 64) :
    ∃ current next buffers, s.append SIZE log = { s with
        currentBuffer := current, nextBuffer := next, buffers := buffers } ∧
      (s.append SIZE log).Wf SIZE ∧ (s.append SIZE log).pending = s.pending ++ stored SIZE log := by
  obtain ⟨buf, hbuf, hlin⟩ := h.current
  rw [append, hbuf]
  dsimp only
  split
  · next hlt =>
    obtain ⟨hlin', hc⟩ := write_spec hlin hsized
    have hfits : log.length < SIZE.val.toNat - buf.contents.length := by
      have hsize : buf.size = SIZE.val := hlin.1.size_admits
      have havail := toNat_writeAvail hlin.1
      rw [gt_iff_lt, BitVec.lt_def, BitVec.toNat_ofNat, Nat.mod_eq_of_lt hsized, writeAvail,
        havail, hsize] at hlt
      rwa [length_contents]
    rw [List.take_of_length_le (by omega)] at hc
    refine ⟨_, s.nextBuffer, s.buffers, rfl,
      ⟨⟨_, rfl, hlin'⟩, h.next, h.buffers, h.parked, h.writing⟩, ?_⟩
    simp only [pending, hbuf, Option.toList_some, List.flatMap_append, List.flatMap_singleton, hc,
      stored, List.take_of_length_le (show log.length ≤ SIZE.val.toNat by omega),
      List.append_assoc]
  · obtain ⟨hnew, hempty⟩ : Linear SIZE (s.nextBuffer.getD (newBuffer SIZE)) ∧
        contents (s.nextBuffer.getD (newBuffer SIZE)) = [] := by
      rcases h.next with ⟨hnone, -⟩ | ⟨next, hnext, hspare⟩
      · rw [hnone]
        exact ⟨linear_new, contents_new⟩
      · rw [hnext]
        exact hspare
    obtain ⟨hlin', hc⟩ := write_spec hnew hsized
    rw [hempty, List.nil_append, List.length_nil, Nat.sub_zero] at hc
    refine ⟨_, none, s.buffers ++ [buf], rfl,
      ⟨⟨_, rfl, hlin'⟩, Or.inl ⟨rfl, by simp⟩, ?_, h.parked, h.writing⟩, ?_⟩
    · simp only [List.forall_mem_append, List.forall_mem_singleton]
      exact ⟨h.buffers, hlin⟩
    · simp only [pending, hbuf, Option.toList_some, List.flatMap_append, List.flatMap_singleton,
        hc, stored]

theorem swap_spec (h : s.Wf SIZE) (hw : s.worker = .swap) :
    s.swap.Wf SIZE ∧ s.swap.pending = [] ∧ s.swap.writeBuffers.flatMap contents = s.pending := by
  obtain ⟨buf, hbuf, hlin⟩ := h.current
  obtain ⟨⟨spare1, h1, hlin1, hempty1⟩, hspare2, hwrite⟩ := h.parked (by simp [hw])
  have hall : ∀ b ∈ s.buffers ++ [buf], Linear SIZE b := by
    simp only [List.forall_mem_append, List.forall_mem_singleton]
    exact ⟨h.buffers, hlin⟩
  refine ⟨⟨⟨spare1, h1, hlin1⟩, Or.inr ?_, ?_, fun hne => absurd rfl hne, fun _ => ?_⟩, ?_, rfl⟩
  · rcases h.next with ⟨hnone, -⟩ | ⟨next, hnext, hspare⟩
    · simpa only [swap, hnone, Option.none_or] using hspare2
    · simp only [swap, hnext, Option.some_or]
      exact ⟨next, rfl, hspare⟩
  · simp [swap, hwrite]
  · simp only [swap, hbuf, Option.toList_some]
    refine ⟨trivial, by simp, hall, ?_⟩
    rcases h.next with ⟨hnone, hne⟩ | ⟨next, hnext, -⟩
    · left
      have hpos := List.length_pos_iff.mpr hne
      rw [List.length_append, List.length_singleton, if_pos hnone]
      exact ⟨rfl, by omega⟩
    · right
      simpa only [hnext, reduceCtorEq, if_false] using hspare2
  · simp [pending, swap, hwrite, h1, hempty1]

theorem recycle_spec {spare : Option Buffer} {bufs : List Buffer}
    (hbufs : ∀ buf ∈ bufs, Linear SIZE buf) (h : spare = none ∧ bufs ≠ [] ∨ Spare SIZE spare) :
    Spare SIZE (recycle spare bufs).1 := by
  rcases h with ⟨rfl, hne⟩ | ⟨buf, rfl, hspare⟩
  · have hlast := List.getLast_mem hne
    rw [recycle, List.getLast?_eq_some_getLast hne]
    exact spare_producerClear (hbufs _ hlast)
  · exact ⟨buf, rfl, hspare⟩

theorem write_file_spec (h : s.Wf SIZE) (hw : s.worker = .write)
    (hfew : s.writeBuffers.length ≤ 25) (now : List Byte) :
    (s.write now).Wf SIZE ∧ (s.write now).pending = s.pending ∧
      (s.write now).writeBuffers = [] ∧
      (s.write now).file = s.file ++ s.writeBuffers.flatMap contents := by
  obtain ⟨h1, hne, hall, h2⟩ := h.writing hw
  have htake : ∀ buf ∈ s.writeBuffers.take 2, Linear SIZE buf :=
    fun buf hbuf => hall buf (List.mem_of_mem_take hbuf)
  have htext : s.writeBuffers.flatMap text = s.writeBuffers.flatMap contents :=
    List.flatMap_congr fun buf hbuf => text_eq (hall buf hbuf)
  have hspare1 : Spare SIZE (recycle s.buffer1 (s.writeBuffers.take 2)).1 :=
    recycle_spec htake (Or.inl ⟨h1, by simpa using hne⟩)
  have hspare2 : Spare SIZE
      (recycle s.buffer2 (recycle s.buffer1 (s.writeBuffers.take 2)).2).1 := by
    rw [h1]
    refine recycle_spec (fun buf hbuf => htake buf ((List.dropLast_sublist _).subset hbuf)) ?_
    refine h2.imp_left fun ⟨hnone, hlen⟩ => ⟨hnone, ?_⟩
    apply List.ne_nil_of_length_pos
    rw [recycle, List.length_dropLast, List.length_take]
    omega
  simp only [write, if_neg (Nat.not_lt.mpr hfew), htext]
  exact ⟨⟨h.current, h.next, h.buffers, fun _ => ⟨hspare1, hspare2, rfl⟩,
    fun hne => Worker.noConfusion hne⟩, rfl, trivial, trivial⟩

end AsyncLogger

/-- Every message is in exactly one place, in the order of the appends. -/
structure Accounted (SIZE : Capacity) (h : History) : Prop where
  wf : h.logger.Wf SIZE
  taken_le : h.taken ≤ h.log.length
  stopped_le : ∀ n ∈ h.stopped, n ≤ h.log.length
  running : h.logger.running = h.stopped.isNone
  ended : h.logger.worker = .ended → h.logger.running = false
  written : h.logger.file ++ h.logger.writeBuffers.flatMap contents =
    (h.log.take h.taken).flatMap (stored SIZE)
  pending : h.logger.pending = (h.log.drop h.taken).flatMap (stored SIZE)

/-- The worker never writes more than 25 buffers at once. -/
def FewBuffers (h : History) : LoggerOp → Prop
  | .work _ => h.logger.worker = .write → h.logger.writeBuffers.length ≤ 25
  | _ => True

instance (h : History) : ∀ op, Decidable (FewBuffers h op)
  | .append _ _ => .isTrue trivial
  | .stop => .isTrue trivial
  | .work _ =>
      inferInstanceAs (Decidable (h.logger.worker = .write → h.logger.writeBuffers.length ≤ 25))

/-- When the worker ends, the messages it has not taken were appended after the stop, or
are empty. -/
def Drained (h : History) : LoggerOp → Prop
  | .work _ => h.logger.worker = .test → h.logger.running = false →
      ∀ n ∈ h.stopped, ∀ log ∈ (h.log.take n).drop h.taken, log = []
  | _ => True

instance (h : History) : ∀ op, Decidable (Drained h op)
  | .append _ _ => .isTrue trivial
  | .stop => .isTrue trivial
  | .work _ =>
      inferInstanceAs (Decidable (h.logger.worker = .test → h.logger.running = false →
        ∀ n ∈ h.stopped, ∀ log ∈ (h.log.take n).drop h.taken, log = []))

/-- Once the worker has ended, the file is what was stored of the first messages, with all
that were appended before the stop among them. -/
def NothingLost (SIZE : Capacity) (h : History) : Prop :=
  h.logger.worker = .ended → ∀ n ∈ h.stopped,
    ∃ k, n ≤ k ∧ k ≤ h.log.length ∧ h.logger.file = (h.log.take k).flatMap (stored SIZE)

section Steps

variable {h : History}

theorem accounted_start : Accounted SIZE (.start SIZE) where
  wf := AsyncLogger.wf_start
  taken_le := Nat.le_refl 0
  stopped_le n hn := by simp [History.start] at hn
  running := rfl
  ended h := Worker.noConfusion h
  written := rfl
  pending := by simp [History.start, AsyncLogger.pending, start, contents_new]

theorem Accounted.file_eq (ha : Accounted SIZE h) (hw : h.logger.worker ≠ .write) :
    h.logger.file = (h.log.take h.taken).flatMap (stored SIZE) := by
  obtain ⟨-, -, hnil⟩ := ha.wf.parked hw
  rw [← ha.written, hnil, List.flatMap_nil, List.append_nil]

theorem accounted_append (ha : Accounted SIZE h) {log : List Byte}
    (hsized : log.length < 2 ^ 64) :
    Accounted SIZE (loggerStep SIZE h (.append log hsized)) := by
  obtain ⟨current, next, buffers, heq, hwf, hpend⟩ := AsyncLogger.append_spec ha.wf hsized
  refine ⟨hwf, ?_, fun n hn => ?_, ?_, ?_, ?_, ?_⟩
  · simp only [loggerStep, List.length_append]
    exact Nat.le_add_right_of_le ha.taken_le
  · simp only [loggerStep, List.length_append]
    exact Nat.le_add_right_of_le (ha.stopped_le n hn)
  · simp only [loggerStep, heq]
    exact ha.running
  · simp only [loggerStep, heq]
    exact ha.ended
  · simp only [loggerStep, heq, List.take_append_of_le_length ha.taken_le]
    exact ha.written
  · simp only [loggerStep, hpend, ha.pending, List.drop_append_of_le_length ha.taken_le,
      List.flatMap_append, List.flatMap_singleton]

theorem accounted_stop (ha : Accounted SIZE h) : Accounted SIZE (loggerStep SIZE h .stop) := by
  refine ⟨⟨ha.wf.current, ha.wf.next, ha.wf.buffers, ha.wf.parked, ha.wf.writing⟩, ha.taken_le,
    ?_, ?_, fun _ => rfl, ha.written, ha.pending⟩
  · intro n hn
    simp only [loggerStep] at hn ⊢
    cases hs : h.stopped with
    | none =>
      rw [hs, Option.none_or] at hn
      exact Nat.le_of_eq (Option.some.inj hn).symm
    | some m =>
      rw [hs, Option.some_or] at hn
      exact ha.stopped_le n (hs.trans hn)
  · simp only [loggerStep, AsyncLogger.stop]
    cases h.stopped <;> rfl

theorem accounted_work (ha : Accounted SIZE h) {now : List Byte}
    (hfew : FewBuffers h (.work now)) : Accounted SIZE (loggerStep SIZE h (.work now)) := by
  simp only [loggerStep, AsyncLogger.work]
  cases hw : h.logger.worker with
  | test =>
    have hparked := ha.wf.parked (by simp [hw])
    refine ⟨⟨ha.wf.current, ha.wf.next, ha.wf.buffers, fun _ => hparked, fun h => ?_⟩, ?_,
      ha.stopped_le, ha.running, fun h => ?_, ?_, ?_⟩
    · dsimp only at h
      split at h <;> exact Worker.noConfusion h
    · simpa using ha.taken_le
    · dsimp only at h ⊢
      split at h
      · exact Worker.noConfusion h
      · next hrun => exact Bool.eq_false_of_not_eq_true hrun
    · simpa using ha.written
    · simp only [reduceCtorEq, if_false]
      exact ha.pending
  | swap =>
    obtain ⟨hwf, hpend, hwrite⟩ := AsyncLogger.swap_spec ha.wf hw
    have hfile := ha.file_eq (by simp [hw])
    refine ⟨hwf, by simp, ha.stopped_le, ha.running, fun h => Worker.noConfusion h, ?_, ?_⟩
    · simp only [if_true, hwrite, ha.pending, List.take_length]
      change h.logger.file ++ _ = _
      rw [hfile, ← List.flatMap_append, List.take_append_drop]
    · simp only [if_true, hpend, List.drop_length, List.flatMap_nil]
  | write =>
    obtain ⟨hwf, hpend, hnil, hfile⟩ := AsyncLogger.write_file_spec ha.wf hw (hfew hw) now
    refine ⟨hwf, by simpa using ha.taken_le, ha.stopped_le, ha.running,
      fun h => Worker.noConfusion h, ?_, ?_⟩
    · simpa [hnil, hfile] using ha.written
    · simpa [hpend] using ha.pending
  | ended => simpa [hw] using ha

/-- Every step keeps the accounts, as long as no buffer is dropped. -/
theorem accounted_step (ha : Accounted SIZE h) {op : LoggerOp} (hfew : FewBuffers h op) :
    Accounted SIZE (loggerStep SIZE h op) := by
  cases op with
  | append log hsized => exact accounted_append ha hsized
  | stop => exact accounted_stop ha
  | work now => exact accounted_work ha hfew

theorem stored_eq_nil_iff {log : List Byte} : stored SIZE log = [] ↔ log = [] := by
  have hpos : SIZE.val.toNat ≠ 0 := fun h => SIZE.power_of_two.1 (BitVec.eq_of_toNat_eq h)
  rw [stored, List.take_eq_nil_iff]
  exact or_iff_right hpos

/-- A shorter prefix of the log gives the same text as one with the first `n` messages
exactly when the messages it lacks of those are empty. -/
theorem take_flatMap_iff {log : List (List Byte)} {taken n : ℕ} (htaken : taken ≤ log.length)
    (hn : n ≤ log.length) :
    (∃ k, n ≤ k ∧ k ≤ log.length ∧
      (log.take taken).flatMap (stored SIZE) = (log.take k).flatMap (stored SIZE)) ↔
      ∀ m ∈ (log.take n).drop taken, m = [] := by
  have hsplit {k : ℕ} (hk : taken ≤ k) : (log.take k).flatMap (stored SIZE) =
      (log.take taken).flatMap (stored SIZE) ++
        ((log.take k).drop taken).flatMap (stored SIZE) := by
    conv_lhs => rw [← List.take_append_drop taken (log.take k)]
    rw [List.flatMap_append, List.take_take, Nat.min_eq_left hk]
  rcases Nat.le_total n taken with hle | hle
  · refine iff_of_true ⟨taken, hle, htaken, rfl⟩ ?_
    rw [List.drop_eq_nil_of_le (by rw [List.length_take]; omega)]
    simp
  · constructor
    · rintro ⟨k, hk, -, heq⟩ m hm
      rw [hsplit (hle.trans hk), List.self_eq_append_right] at heq
      have hmem : m ∈ (log.take k).drop taken := by
        rw [← Nat.min_eq_left hk, ← List.take_take, List.drop_take] at hm
        exact List.mem_of_mem_take hm
      exact stored_eq_nil_iff.mp (List.flatMap_eq_nil_iff.mp heq m hmem)
    · intro hall
      refine ⟨n, Nat.le_refl n, hn, ?_⟩
      have hnil : ((log.take n).drop taken).flatMap (stored SIZE) = [] :=
        List.flatMap_eq_nil_iff.mpr fun m hm => stored_eq_nil_iff.mpr (hall m hm)
      rw [hsplit hle, hnil, List.append_nil]

/-- A step that ends the worker loses nothing exactly when the worker has taken what was
appended before the stop. -/
theorem nothingLost_step (ha : Accounted SIZE h) (hl : NothingLost SIZE h) (op : LoggerOp) :
    NothingLost SIZE (loggerStep SIZE h op) ↔ Drained h op := by
  cases op with
  | append log hsized =>
    refine iff_of_true ?_ trivial
    obtain ⟨current, next, buffers, heq, -⟩ := AsyncLogger.append_spec ha.wf hsized
    simp only [NothingLost, loggerStep, heq]
    intro hw n hn
    obtain ⟨k, hnk, hk, hfile⟩ := hl hw n hn
    refine ⟨k, hnk, by rw [List.length_append]; omega, ?_⟩
    rw [List.take_append_of_le_length hk, hfile]
  | stop =>
    refine iff_of_true ?_ trivial
    intro hw n hn
    have hsome : h.stopped.isNone = false := ha.running.symm.trans (ha.ended hw)
    simp only [loggerStep] at hn ⊢
    refine hl hw n ?_
    cases hs : h.stopped with
    | none => simp [hs] at hsome
    | some m => rwa [hs, Option.some_or] at hn
  | work now =>
    simp only [NothingLost, Drained, loggerStep, AsyncLogger.work]
    cases hw : h.logger.worker with
    | test =>
      cases hrun : h.logger.running with
      | true => simp
      | false =>
        have hfile := ha.file_eq (by simp [hw])
        simp only [Bool.false_eq_true, if_false, true_imp_iff, hfile]
        exact forall₂_congr fun n hn => take_flatMap_iff ha.taken_le (ha.stopped_le n hn)
    | swap => simp [AsyncLogger.swap]
    | write => simp [AsyncLogger.write]
    | ended => simpa [hw] using hl hw

end Steps

/-- As long as no buffer is dropped, everything appended before the stop is in the file when
the worker has ended, once and in order, in exactly the runs in which the worker has taken
it by then. -/
theorem nothing_lost_iff {SIZE : Capacity} {ops : List LoggerOp}
    (hfew : (logger SIZE).Along FewBuffers (.start SIZE) ops) :
    (∀ n, NothingLost SIZE ((logger SIZE).run (.start SIZE) (ops.take n)).1) ↔
      (logger SIZE).Along Drained (.start SIZE) ops :=
  (logger SIZE).run_always_iff_of_invariant (I := Accounted SIZE) (P := NothingLost SIZE)
    (fun _ _ ha hf => accounted_step ha hf) (fun _ op ha _ hl => nothingLost_step ha hl op)
    accounted_start (fun hw => Worker.noConfusion hw) hfew

/-- The worker is past its test when the logger is stopped, and still takes the message. -/
theorem nothing_lost_iff_taken :
    NothingLost kLargeBufferSize ((logger kLargeBufferSize).run (.start kLargeBufferSize)
      (List.take 6
        [.append [0x61] (by decide), .work [], .stop, .work [], .work [], .work []])).1 :=
  (nothing_lost_iff (by decide +kernel)).mpr (by decide +kernel) 6

/-- A message that is appended before the worker's first test and before the stop is lost. -/
theorem last_message_lost :
    let h := ((logger kLargeBufferSize).run (.start kLargeBufferSize)
      [.append [0x61] (by decide), .stop, .work []]).1
    h.log = [[0x61]] ∧ h.stopped = some 1 ∧ h.logger.worker = .ended ∧ h.logger.file = [] := by
  decide +kernel

end Plain.Log
