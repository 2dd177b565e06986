import Plain.Connection.Response

/-! # The indices of calls

The index of a call is the value of a counter of 32 bits, whatever is answered in
between. The calls in the table have indices of their own, but the call number 2³² is
given the index zero, which responses do not look for.
-/

namespace Plain.Connection

open Net

def CallOp.isCall : CallOp → Bool
  | .asyncCall _ _ => true
  | .response _ => false

namespace Caller

variable {encode : Packet → List Byte} {host : Endian} {s : Caller} {m : ℕ}

/-- There were `m` calls, with the numbers from one on for their indices, and the counter is
at the last of them. -/
structure Numbered (s : Caller) (m : ℕ) : Prop where
  length : s.calls.length = m
  counter : s.callIndex = BitVec.ofNat 32 m
  index : ∀ n < m, s.index n = some (BitVec.ofNat 32 (n + 1))

section Step

@[simp] theorem callIndex_emplace (index : BitVec 32) (n : ℕ) :
    (s.emplace index n).callIndex = s.callIndex := by
  unfold emplace
  split <;> rfl

theorem asyncCall_next (encode : Packet → List Byte) (host : Endian) (s : Caller)
    (name args : List Byte) :
    (s.asyncCall encode host name args).1.callIndex = s.callIndex + 1 ∧
      ∃ p, (s.asyncCall encode host name args).1.calls = s.calls ++ [⟨s.callIndex + 1, p⟩] := by
  by_cases h : encode ((callPacket host (s.callIndex + 1) name args).setCallRequest true) = []
  · constructor
    · simp only [asyncCall, newCallIndex, sendCall, write_of_encode_eq h]
      rw [satisfy_of_pending (by simp [promise])]
      rfl
    · obtain ⟨t, failure, ht, hcalls, -⟩ := asyncCall_unsent h
      rw [ht]
      exact ⟨_, hcalls⟩
  · constructor
    · simp only [asyncCall, newCallIndex, sendCall, write_of_encode_ne h, callIndex_emplace]
    · obtain ⟨t, p, ht, hcalls, -⟩ := asyncCall_sent h
      rw [ht]
      exact ⟨p, hcalls⟩

theorem handleRpcResponse_state (host : Endian) (s : Caller) (packet : Packet) :
    (s.handleRpcResponse host packet).1 = s ∨
      ∃ n p, (s.handleRpcResponse host packet).1 = s.setPromise n p := by
  by_cases h : (packet.readInt host 32).2 = 0
  · exact Or.inl (congrArg Prod.fst (handleRpcResponse_zero h))
  cases hn : s.callings (packet.readInt host 32).2 with
  | none => exact Or.inl (congrArg Prod.fst (handleRpcResponse_unknown h hn))
  | some n =>
    by_cases hp : s.promise n = some .pending
    · obtain ⟨p, -, hstep⟩ := handleRpcResponse_pending h hn hp
      exact Or.inr ⟨n, p, congrArg Prod.fst hstep⟩
    · exact Or.inl (congrArg Prod.fst (handleRpcResponse_again h hn hp))

theorem Numbered.asyncCall (h : s.Numbered m) (name args : List Byte) :
    (s.asyncCall encode host name args).1.Numbered (m + 1) := by
  obtain ⟨hcounter, p, hcalls⟩ := asyncCall_next encode host s name args
  have hnext : s.callIndex + 1 = BitVec.ofNat 32 (m + 1) := by
    rw [h.counter, BitVec.ofNat_add]
    rfl
  constructor
  · rw [hcalls, List.length_append, h.length]
    rfl
  · exact hcounter.trans hnext
  · intro n hn
    rw [Caller.index, hcalls]
    rcases Nat.lt_succ_iff_lt_or_eq.mp hn with hlt | rfl
    · rw [List.getElem?_append_left (h.length.symm ▸ hlt)]
      exact h.index n hlt
    · rw [List.getElem?_append_right h.length.le, h.length, Nat.sub_self]
      exact congrArg some hnext

theorem Numbered.setPromise (h : s.Numbered m) (n : ℕ) (p : Promise) :
    (s.setPromise n p).Numbered m := by
  constructor
  · rw [Caller.setPromise, List.length_modify, h.length]
  · exact h.counter
  · intro n hn
    rw [index_setPromise]
    exact h.index n hn

theorem Numbered.step (h : s.Numbered m) (op : CallOp) :
    ((callMachine encode host).step s op).1.Numbered (m + if op.isCall then 1 else 0) := by
  cases op with
  | asyncCall name args => exact h.asyncCall name args
  | response packet =>
    rcases handleRpcResponse_state host s packet with hs | ⟨n, p, hs⟩
    · exact hs.symm ▸ h
    · exact hs.symm ▸ h.setPromise n p

end Step

/-- After any run the calls are numbered in the order they were made. -/
theorem numbered_run (encode : Packet → List Byte) (host : Endian) (ops : List CallOp) :
    ((callMachine encode host).run .new ops).1.Numbered (ops.countP CallOp.isCall) := by
  suffices h : ∀ (s : Caller) (m : ℕ), s.Numbered m →
      ((callMachine encode host).run s ops).1.Numbered (m + ops.countP CallOp.isCall) by
    simpa using h .new 0 ⟨rfl, rfl, fun n hn => absurd hn (Nat.not_lt_zero n)⟩
  induction ops with
  | nil => exact fun s m h => h
  | cons op ops ih =>
    intro s m h
    rw [List.countP_cons, Nat.add_comm (ops.countP _), ← Nat.add_assoc]
    exact ih _ _ (h.step op)

end Caller

/-- On a connection the call number `n` has the index `n + 1` modulo 2³², so that no call has
the index zero exactly when there are fewer than 2³² calls. Two calls in the table never have
the same index. -/
theorem call_index_nonzero_iff (encode : Packet → List Byte) (host : Endian)
    (ops : List CallOp) :
    let s := ((callMachine encode host).run .new ops).1
    (∀ n < ops.countP CallOp.isCall, s.index n = some (BitVec.ofNat 32 (n + 1))) ∧
      ((∀ n, s.index n ≠ some 0) ↔ ops.countP CallOp.isCall < 2 ^ 32) ∧
      ∀ i j n m, s.callings i = some n → s.callings j = some m → s.index n = s.index m →
        i = j ∧ n = m := by
  have hnum := Caller.numbered_run encode host ops
  have hnew : Caller.new.Recorded := fun i n h => nomatch h
  have hrec : ((callMachine encode host).run .new ops).1.Recorded :=
    (callMachine encode host).run_keeps (fun s op h => (Caller.step_change s op).recorded h)
      hnew ops
  refine ⟨hnum.index, ?_, ?_⟩
  · constructor
    · intro h
      by_contra hge
      have hlast := hnum.index (2 ^ 32 - 1) (by omega)
      exact h _ hlast
    · intro hlt n hzero
      have hn : n < ops.countP CallOp.isCall := by
        rw [← hnum.length]
        exact (List.getElem?_eq_some_iff.mp (Option.map_eq_some_iff.mp hzero).choose_spec.1).1
      have hindex := congrArg BitVec.toNat
        (Option.some.inj ((hnum.index n hn).symm.trans hzero))
      rw [BitVec.toNat_ofNat, Nat.mod_eq_of_lt (by omega)] at hindex
      simp at hindex
  · intro i j n m hi hj heq
    have hij : i = j := by
      rw [hrec i n hi, hrec j m hj] at heq
      exact Option.some.inj heq
    subst hij
    exact ⟨rfl, Option.some.inj (hi.symm.trans hj)⟩

/-- The last of 2³² calls is given the index zero. -/
theorem call_index_zero :
    ((callMachine (Net.encode .little) .little).run .new
      (List.replicate (2 ^ 32) (.asyncCall [0x66] []))).1.index (2 ^ 32 - 1) = some 0 := by
  have hnum := Caller.numbered_run (Net.encode .little) .little
    (List.replicate (2 ^ 32) (.asyncCall [0x66] []))
  rw [List.countP_replicate] at hnum
  exact hnum.index (2 ^ 32 - 1) (by decide)

end Plain.Connection
