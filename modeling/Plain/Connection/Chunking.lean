import Plain.Connection.Command

/-! # Chunking

What a connection hands over does not depend on how the bytes of the packets were cut
into chunks, as long as no sixty deliveries in a row end inside a header. The count
depends only on lengths; it restarts when the stream runs empty or a pass is used up.
-/

namespace Plain.Connection

open Net

namespace Inbox

section Pass

variable {host : Endian} {limit : Limit} {h : Handlers} {s : Inbox}
  {done todo : List Packet} {r : Stream}

theorem checkFlag_of_size_ne_zero (hs : s.istream.size ≠ 0) : s.checkFlag = s := if_neg hs

theorem size_flatMap_encode (host : Endian) (done : List Packet) (r : Stream) :
    Stream.size (done.flatMap (encode host) ++ r) = 0 ↔ done = [] ∧ r = [] := by
  cases done with
  | nil => simp [Stream.size]
  | cons p done =>
    have hlen := length_encode host p
    simp only [Stream.size, List.flatMap_cons, List.length_append, hlen, kHeaderSize,
      reduceCtorEq, false_and, iff_false]
    omega

theorem handlePackets_encode {p : Packet} (hp : p.Valid limit) (hh : ∀ p, h.handle p = true)
    (i : ℕ) (hs : s.istream = encode host p ++ r) :
    handlePackets (decode host limit) h (i + 1) s =
      if r.size = 0 then ⟨true, [p.received], { s with istream := r, errorTimes := 0 }⟩
      else
        let q := handlePackets (decode host limit) h i { s with istream := r }
        { q with packets := p.received :: q.packets } := by
  rw [handlePackets, hs, decode_encode hp]
  dsimp only
  rw [if_pos (hh _)]

theorem handlePackets_remains (ht : ∀ p ∈ todo, p.Valid limit) (hr : Remains host todo r)
    (i : ℕ) (hs : s.istream = r) :
    handlePackets (decode host limit) h (i + 1) s =
      ⟨true, [], { s.setWork false with
        errorTimes := if r.length < kHeaderSize then s.errorTimes + 1 else s.errorTimes }⟩ := by
  subst hs
  rw [handlePackets, decode_remains ht hr, stopError]
  by_cases hlt : s.istream.length < kHeaderSize
  · simp only [if_pos hlt]
    rfl
  · simp only [if_neg hlt]
    rfl

theorem handlePackets_few (hd : ∀ p ∈ done, p.Valid limit) (ht : ∀ p ∈ todo, p.Valid limit)
    (hr : Remains host todo r) (hh : ∀ p, h.handle p = true)
    (hs : s.istream = done.flatMap (encode host) ++ r) {b : ℕ}
    (hb : r ≠ [] ∧ done.length < b ∨ r = [] ∧ done ≠ [] ∧ done.length ≤ b) :
    handlePackets (decode host limit) h b s =
      ⟨true, done.map Packet.received,
        if r = [] then { s with istream := r, errorTimes := 0 }
        else { s.setWork false with
          istream := r
          errorTimes := if r.length < kHeaderSize then s.errorTimes + 1 else s.errorTimes }⟩ := by
  induction done generalizing b s with
  | nil =>
    obtain ⟨hne, hlt⟩ : r ≠ [] ∧ 0 < b := by simpa using hb
    obtain ⟨i, rfl⟩ := Nat.exists_eq_add_one_of_ne_zero (Nat.ne_of_gt hlt)
    rw [handlePackets_remains ht hr i hs, if_neg hne]
    subst hs
    rfl
  | cons p done ih =>
    obtain ⟨i, rfl⟩ : ∃ i, b = i + 1 :=
      Nat.exists_eq_add_one_of_ne_zero (by simp at hb; omega)
    rw [List.flatMap_cons, List.append_assoc] at hs
    rw [handlePackets_encode (hd p List.mem_cons_self) hh i hs]
    by_cases hend : done = [] ∧ r = []
    · obtain ⟨rfl, rfl⟩ := hend
      rfl
    · have hb' : r ≠ [] ∧ done.length < i ∨ r = [] ∧ done ≠ [] ∧ done.length ≤ i := by
        by_cases hnil : r = []
        · refine .inr ⟨hnil, fun h => hend ⟨h, hnil⟩, ?_⟩
          simpa [hnil] using hb
        · refine .inl ⟨hnil, ?_⟩
          simpa [hnil] using hb
      rw [if_neg ((size_flatMap_encode host done r).not.mpr hend),
        ih (fun q hq => hd q (List.mem_cons_of_mem p hq)) rfl hb']
      rfl

theorem handlePackets_many (hd : ∀ p ∈ done, p.Valid limit) (hh : ∀ p, h.handle p = true)
    (hs : s.istream = done.flatMap (encode host) ++ r) {b : ℕ} (hb : b ≤ done.length)
    (hmore : ¬ (done.drop b = [] ∧ r = [])) :
    handlePackets (decode host limit) h b s =
      ⟨true, (done.take b).map Packet.received,
        { s with istream := (done.drop b).flatMap (encode host) ++ r, errorTimes := 0 }⟩ := by
  induction b generalizing done s with
  | zero =>
    rw [List.take_zero, List.drop_zero, ← hs]
    rfl
  | succ i ih =>
    obtain ⟨p, done, rfl⟩ := List.exists_cons_of_ne_nil
      (List.ne_nil_of_length_pos (show 0 < done.length by omega))
    rw [List.flatMap_cons, List.append_assoc] at hs
    rw [List.drop_succ_cons] at hmore ⊢
    have hmore' : ¬ (done = [] ∧ r = []) := by
      rintro ⟨rfl, hnil⟩
      exact hmore ⟨List.drop_nil, hnil⟩
    rw [handlePackets_encode (hd p List.mem_cons_self) hh i hs,
      if_neg ((size_flatMap_encode host done r).not.mpr hmore'),
      ih (fun q hq => hd q (List.mem_cons_of_mem p hq)) rfl (by simpa using hb) hmore]
    rfl

end Pass

/-- How many deliveries in a row have ended inside a header, after one that completed
`m` packets and left `l` bytes. -/
def headerStops (count m l : ℕ) : ℕ :=
  if l = 0 then 0
  else (if m < kOnceHandlePacketCount then count else 0) + if l < kHeaderSize then 1 else 0

section Settle

variable {host : Endian} {limit : Limit} {h : Handlers} {s : Inbox}
  {done todo : List Packet} {r : Stream}

theorem processCommand_few (hd : ∀ p ∈ done, p.Valid limit) (ht : ∀ p ∈ todo, p.Valid limit)
    (hr : Remains host todo r) (hh : ∀ p, h.handle p = true) (hw : s.hasWork = true)
    (hs : s.istream = done.flatMap (encode host) ++ r)
    (he : s.errorTimes.toNat < kCantPeekMaxCount)
    (hb : r ≠ [] ∧ done.length < kOnceHandlePacketCount ∨
      r = [] ∧ done ≠ [] ∧ done.length ≤ kOnceHandlePacketCount) :
    processCommand (decode host limit) h s =
      ⟨true, done.map Packet.received,
        ⟨r, setWorkFlag s.workFlags .command false,
          BitVec.ofNat 8 (headerStops s.errorTimes.toNat done.length r.length)⟩⟩ := by
  have hsize : s.istream.size ≠ 0 := by
    rw [hs]
    refine (size_flatMap_encode host done r).not.mpr fun hnil => ?_
    simp [hnil] at hb
  rw [processCommand, if_pos hw, if_neg hsize, if_neg (by omega),
    handlePackets_few hd ht hr hh hs hb]
  by_cases hnil : r = []
  · subst hnil
    rfl
  · have hlt : done.length < kOnceHandlePacketCount := by simpa [hnil] using hb
    have hlen : r.length ≠ 0 := fun h0 => hnil (List.eq_nil_of_length_eq_zero h0)
    dsimp only
    rw [if_neg hnil, checkFlag_of_size_ne_zero (by exact hlen), headerStops, if_neg hlen,
      if_pos hlt, BitVec.ofNat_add, BitVec.ofNat_toNat, BitVec.setWidth_eq]
    by_cases hshort : r.length < kHeaderSize
    · rw [if_pos hshort, if_pos hshort]
      rfl
    · rw [if_neg hshort, if_neg hshort]
      simp [setWork]

theorem processCommand_many (hd : ∀ p ∈ done, p.Valid limit) (hh : ∀ p, h.handle p = true)
    (hw : s.hasWork = true) (hs : s.istream = done.flatMap (encode host) ++ r)
    (he : s.errorTimes.toNat < kCantPeekMaxCount) (hb : kOnceHandlePacketCount ≤ done.length)
    (hmore : ¬ (done.drop kOnceHandlePacketCount = [] ∧ r = [])) :
    processCommand (decode host limit) h s =
      ⟨true, (done.take kOnceHandlePacketCount).map Packet.received,
        { s with
          istream := (done.drop kOnceHandlePacketCount).flatMap (encode host) ++ r
          errorTimes := 0 }⟩ := by
  have hsize : s.istream.size ≠ 0 := by
    rw [hs]
    refine (size_flatMap_encode host done r).not.mpr fun hnil => hmore ⟨?_, hnil.2⟩
    rw [hnil.1, List.drop_nil]
  rw [processCommand, if_pos hw, if_neg hsize, if_neg (by omega),
    handlePackets_many hd hh hs hb hmore]
  dsimp only
  rw [checkFlag_of_size_ne_zero ((size_flatMap_encode host _ r).not.mpr hmore)]

theorem headerStops_pass {count m l : ℕ} (hm : kOnceHandlePacketCount ≤ m) :
    headerStops 0 (m - kOnceHandlePacketCount) l = headerStops count m l := by
  rw [headerStops, headerStops, ite_self, if_neg (show ¬ m < kOnceHandlePacketCount by omega)]

/-- Running until there is nothing to do hands over all whole packets. -/
theorem settle_eq (hd : ∀ p ∈ done, p.Valid limit) (ht : ∀ p ∈ todo, p.Valid limit)
    (hr : Remains host todo r) (hh : ∀ p, h.handle p = true) (hw : s.hasWork = true)
    (hs : s.istream = done.flatMap (encode host) ++ r) (hne : ¬ (done = [] ∧ r = []))
    (he : s.errorTimes.toNat < kCantPeekMaxCount) {fuel : ℕ} (hf : done.length < fuel) :
    settle (decode host limit) h fuel s =
      some ⟨true, done.map Packet.received,
        ⟨r, setWorkFlag s.workFlags .command false,
          BitVec.ofNat 8 (headerStops s.errorTimes.toNat done.length r.length)⟩⟩ := by
  induction fuel generalizing done s with
  | zero => omega
  | succ fuel ih =>
    by_cases hb : r ≠ [] ∧ done.length < kOnceHandlePacketCount ∨
        r = [] ∧ done ≠ [] ∧ done.length ≤ kOnceHandlePacketCount
    · rw [settle, processCommand_few hd ht hr hh hw hs he hb]
      dsimp only
      rw [if_neg (by simp [hasWork])]
    · have hmany : kOnceHandlePacketCount ≤ done.length ∧
          ¬ (done.drop kOnceHandlePacketCount = [] ∧ r = []) := by
        rw [List.drop_eq_nil_iff]
        by_cases hnil : r = []
        · have hdone : done ≠ [] := fun h => hne ⟨h, hnil⟩
          simp [hnil, hdone] at hb
          omega
        · simp [hnil] at hb
          exact ⟨hb, by simp [hnil]⟩
      obtain ⟨hle, hmore⟩ := hmany
      have hpass := processCommand_many hd hh hw hs he hle hmore
      have hlen : (done.drop kOnceHandlePacketCount).length =
          done.length - kOnceHandlePacketCount := List.length_drop
      have hpos : 0 < kOnceHandlePacketCount := by decide
      have hnext := @ih (done.drop kOnceHandlePacketCount)
        (s := { s with
          istream := (done.drop kOnceHandlePacketCount).flatMap (encode host) ++ r
          errorTimes := 0 })
        (fun p hp => hd p (List.mem_of_mem_drop hp)) hw rfl hmore
        (show (0 : BitVec 8).toNat < kCantPeekMaxCount by decide) (by omega)
      rw [settle, hpass]
      dsimp only
      rw [if_pos ⟨rfl, hw⟩, hnext, hlen]
      simp only [Option.map_some, ← List.map_append, List.take_append_drop]
      rw [← headerStops_pass hle]
      rfl

theorem settle_fails (hw : s.hasWork = true) (hs : s.istream.size ≠ 0)
    (he : kCantPeekMaxCount ≤ s.errorTimes.toNat) (fuel : ℕ) :
    settle (decode host limit) h (fuel + 1) s = some ⟨false, [], s⟩ := by
  have hfail : processCommand (decode host limit) h s = ⟨false, [], s⟩ := by
    rw [processCommand, if_pos hw, if_neg hs, if_pos he, checkFlag_of_size_ne_zero hs]
  rw [settle, hfail]
  exact if_neg (by simp)

end Settle

section Lengths

/-- The frames of the given lengths that fit into so many bytes: their number, the bytes
left over, and the frames to come. -/
def wholeFrames : List ℕ → ℕ → ℕ × ℕ × List ℕ
  | [], n => (0, n, [])
  | f :: fs, n =>
      if f ≤ n then
        let r := wholeFrames fs (n - f)
        (r.1 + 1, r.2)
      else (0, n, f :: fs)

/-- No delivery starts after sixty in a row that ended inside a header, given the lengths
of the frames to come, the bytes already there, the count, and the lengths of the chunks. -/
def FewHeaderStops : List ℕ → ℕ → ℕ → List ℕ → Prop
  | _, _, _, [] => True
  | fs, l, count, n :: ns =>
      count < kCantPeekMaxCount ∧
        FewHeaderStops (wholeFrames fs (l + n)).2.2 (wholeFrames fs (l + n)).2.1
          (headerStops count (wholeFrames fs (l + n)).1 (wholeFrames fs (l + n)).2.1) ns

instance instDecidableFewHeaderStops :
    (fs : List ℕ) → (l count : ℕ) → (ns : List ℕ) → Decidable (FewHeaderStops fs l count ns)
  | _, _, _, [] => .isTrue trivial
  | _, _, _, _ :: ns => @instDecidableAnd _ _ _ (instDecidableFewHeaderStops _ _ _ ns)

def frameLength (p : Packet) : ℕ := kHeaderSize + p.data.length

variable {host : Endian} {done todo : List Packet} {r : Stream}

theorem wholeFrames_remains (hr : Remains host todo r) :
    wholeFrames (todo.map frameLength) r.length = (0, r.length, todo.map frameLength) := by
  cases todo with
  | nil => rfl
  | cons p todo =>
    have hlt : r.length < frameLength p := by
      rw [frameLength, ← length_encode host]
      exact lt_of_le_of_ne hr.1.length_le fun h => hr.2 (hr.1.eq_of_length h)
    rw [List.map_cons, wholeFrames, if_neg (by omega)]

theorem wholeFrames_append (hr : Remains host todo r) :
    wholeFrames ((done ++ todo).map frameLength)
        (done.flatMap (encode host) ++ r).length =
      (done.length, r.length, todo.map frameLength) := by
  induction done with
  | nil => exact wholeFrames_remains hr
  | cons p done ih =>
    have hlen : ((p :: done).flatMap (encode host) ++ r).length =
        frameLength p + (done.flatMap (encode host) ++ r).length := by
      rw [List.flatMap_cons, List.append_assoc, List.length_append, length_encode, frameLength]
    rw [hlen, List.cons_append, List.map_cons, wholeFrames, if_pos (by omega),
      Nat.add_sub_cancel_left, ih]
    rfl

theorem headerStops_le {count m l : ℕ} (hc : count < kCantPeekMaxCount) :
    headerStops count m l ≤ kCantPeekMaxCount := by
  rw [headerStops]
  split_ifs <;> omega

end Lengths

section Receive

variable {host : Endian} {limit : Limit} {h : Handlers}

theorem eq_nil_of_remains {todo : List Packet}
    (hr : Remains host todo (todo.flatMap (encode host))) : todo = [] := by
  cases todo with
  | nil => rfl
  | cons p todo =>
    have hle := hr.1.length_le
    refine absurd (hr.1.eq_of_length ?_) hr.2
    rw [List.flatMap_cons, List.length_append] at hle ⊢
    omega

theorem bind_prepend {o : Option Handled} {ps qs : List Packet} :
    (∃ s', (o.bind fun q => some { q with packets := ps ++ q.packets }) =
        some ⟨true, ps ++ qs, s'⟩) ↔ ∃ s', o = some ⟨true, qs, s'⟩ := by
  cases o with
  | none => simp
  | some q =>
    obtain ⟨result, packets, inbox⟩ := q
    simp

theorem hasWork_deliver (s : Inbox) (c : List Byte) : (s.deliver c).hasWork = true := by
  simp [deliver, hasWork, setWork]

theorem toNat_headerStops {count m l : ℕ} (hc : count < kCantPeekMaxCount) :
    (BitVec.ofNat 8 (headerStops count m l)).toNat = headerStops count m l := by
  have hle : headerStops count m l ≤ 60 := headerStops_le hc
  rw [BitVec.toNat_ofNat, Nat.mod_eq_of_lt (by omega)]

theorem settle_deliver {done todo : List Packet} {r : Stream} {s : Inbox} {c : List Byte}
    (hv : ∀ p ∈ done ++ todo, p.Valid limit) (hr : Remains host todo r)
    (hh : ∀ p, h.handle p = true) (hc : c ≠ [])
    (hs : s.istream ++ c = done.flatMap (encode host) ++ r)
    (he : s.errorTimes.toNat < kCantPeekMaxCount) :
    settle (decode host limit) h ((s.deliver c).istream.size + 1) (s.deliver c) =
      some ⟨true, done.map Packet.received,
        ⟨r, setWorkFlag (s.deliver c).workFlags .command false,
          BitVec.ofNat 8 (headerStops s.errorTimes.toNat done.length r.length)⟩⟩ := by
  have hnil : ¬ (done = [] ∧ r = []) := by
    rintro ⟨rfl, rfl⟩
    exact hc (List.append_eq_nil_iff.mp hs).2
  have hfuel : done.length < (s.deliver c).istream.size + 1 := by
    have hlen := length_le_flatMap_encode host done
    change done.length < (s.istream ++ c).length + 1
    rw [hs, List.length_append]
    omega
  exact settle_eq (fun p hp => hv p (List.mem_append_left _ hp))
    (fun p hp => hv p (List.mem_append_right _ hp)) hr hh (hasWork_deliver s c) hs hnil he hfuel

/-- From any state between deliveries, the other packets are handed over exactly when the
count of header stops stays below its bound. -/
theorem receive_iff (hh : ∀ p, h.handle p = true) {chunks : List (List Byte)}
    (hc : ∀ c ∈ chunks, c ≠ []) {todo : List Packet} (hv : ∀ p ∈ todo, p.Valid limit)
    {s : Inbox} (hr : Remains host todo s.istream)
    (hsum : s.istream ++ chunks.flatten = todo.flatMap (encode host))
    (he : s.errorTimes.toNat ≤ kCantPeekMaxCount) :
    (∃ s', receive (decode host limit) h chunks s =
        some ⟨true, todo.map Packet.received, s'⟩) ↔
      FewHeaderStops (todo.map frameLength) s.istream.length s.errorTimes.toNat
        (chunks.map List.length) := by
  induction chunks generalizing todo s with
  | nil =>
    rw [List.flatten_nil, List.append_nil] at hsum
    rw [hsum] at hr
    obtain rfl := eq_nil_of_remains hr
    exact iff_of_true ⟨s, rfl⟩ trivial
  | cons c chunks ih =>
    rw [List.flatten_cons, ← List.append_assoc] at hsum
    obtain ⟨done, todo, r, rfl, hsplit, hr'⟩ :=
      prefix_split (show s.istream ++ c <+: _ from ⟨_, hsum⟩)
    have hne : c ≠ [] := hc c List.mem_cons_self
    have hframes : wholeFrames ((done ++ todo).map frameLength) (s.istream.length + c.length) =
        (done.length, r.length, todo.map frameLength) := by
      rw [← List.length_append, hsplit, wholeFrames_append hr']
    rw [receive]
    by_cases hstuck : kCantPeekMaxCount ≤ s.errorTimes.toNat
    · have hsize : (s.deliver c).istream.size ≠ 0 :=
        fun h0 => hne (List.append_eq_nil_iff.mp (List.eq_nil_of_length_eq_zero h0)).2
      rw [settle_fails (hasWork_deliver s c) hsize hstuck]
      refine iff_of_false ?_ fun hfew => ?_
      · simp
      · exact absurd hfew.1 (by omega)
    · have hlt : s.errorTimes.toNat < kCantPeekMaxCount := by omega
      have hrest : r ++ chunks.flatten = todo.flatMap (encode host) := by
        rw [hsplit, List.append_assoc, List.flatMap_append] at hsum
        exact List.append_cancel_left hsum
      have hnext := ih (fun d hd => hc d (List.mem_cons_of_mem c hd))
        (fun p hp => hv p (List.mem_append_right _ hp))
        (s := ⟨r, setWorkFlag (s.deliver c).workFlags .command false,
          BitVec.ofNat 8 (headerStops s.errorTimes.toNat done.length r.length)⟩)
        hr' hrest (by rw [toNat_headerStops hlt]; exact headerStops_le hlt)
      rw [toNat_headerStops hlt] at hnext
      rw [List.map_cons, FewHeaderStops, hframes, and_iff_right hlt, ← hnext]
      simp only [settle_deliver hv hr' hh hne hsplit hlt, Option.bind_eq_bind, Option.bind_some,
        if_true, List.map_append]
      exact bind_prepend

/-- Whatever the chunks, a new connection hands over exactly the packets that were sent,
in order and without failing, if and only if no delivery starts after sixty in a row
that ended inside a header. -/
theorem receive_chunks_iff {ps : List Packet} (hv : ∀ p ∈ ps, p.Valid limit)
    (hh : ∀ p, h.handle p = true) {chunks : List (List Byte)} (hc : ∀ c ∈ chunks, c ≠ [])
    (hsum : chunks.flatten = ps.flatMap (encode host)) :
    (∃ s, receive (decode host limit) h chunks new =
        some ⟨true, ps.map Packet.received, s⟩) ↔
      FewHeaderStops (ps.map frameLength) 0 0 (chunks.map List.length) := by
  have hr : Remains host ps new.istream := by
    cases ps with
    | nil => rfl
    | cons p ps =>
      refine ⟨List.nil_prefix, fun hnil => ?_⟩
      have hlen := length_encode host p
      rw [← hnil, kHeaderSize] at hlen
      simp [new] at hlen
      omega
  exact receive_iff hh hc hv hr hsum (by decide)

def accepting : Handlers := ⟨fun _ => true, fun _ => true, some fun _ => true, none⟩

theorem handle_accepting (p : Packet) : accepting.handle p = true := by
  simp [Handlers.handle, accepting]

/-- Two packets in three chunks, the first of which ends inside a header. -/
theorem receive_chunks_three :
    ∃ s, receive (decode .little ⟨0xffff, 200⟩) accepting
        [[0, 1, 0], [0, 0, 1, 5, 0, 2], [0, 0, 0, 0]] new =
      some ⟨true, [(⟨1, [5], 0, 0⟩ : Packet), ⟨2, [], 0, 0⟩].map Packet.received, s⟩ := by
  refine (receive_chunks_iff ?_ handle_accepting ?_ ?_).mpr ?_
  all_goals decide

/-- Sixty-two empty packets in chunks that each end one byte into the next header: the
sixty-first delivery fails. -/
theorem receive_chunks_stuck :
    (∀ p ∈ List.replicate 62 (⟨1, [], 0, 0⟩ : Packet), p.Valid ⟨0xffff, 200⟩) ∧
      ([0, 1, 0, 0, 0, 0, 0] :: List.replicate 60 [1, 0, 0, 0, 0, 0] ++
          [[1, 0, 0, 0, 0]]).flatten =
        (List.replicate 62 (⟨1, [], 0, 0⟩ : Packet)).flatMap (encode .little) ∧
      (receive (decode .little ⟨0xffff, 200⟩) accepting
          ([0, 1, 0, 0, 0, 0, 0] :: List.replicate 60 [1, 0, 0, 0, 0, 0] ++
            [[1, 0, 0, 0, 0]]) new).map (fun r => (r.result, r.packets.length)) =
        some (false, 60) := by
  refine ⟨by decide, by decide +kernel, by decide +kernel⟩

end Receive

end Inbox

end Plain.Connection
