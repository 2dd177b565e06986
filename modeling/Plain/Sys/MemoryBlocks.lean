import Plain.Sys.MemoryPool
import Mathlib.Algebra.BigOperators.Group.Finset.Basic
import Mathlib.Algebra.Order.BigOperators.Group.Finset
import Mathlib.Data.List.Pairwise

/-! # The blocks of the memory pool

As long as nobody runs during a call of `free`, the blocks of every leaf are packed: they lie
apart, inside their leaf, and their headers are as `malloc` has written them. A leaf from which
too much was taken once is lost for good. How much too much can be taken depends on the number of
threads, which has to be small enough for the counts not to wrap around.
-/

namespace Plain.Sys

open Arena

variable {c : PoolConfig} {n : ℕ}

theorem PoolConfig.next_lt {leaf : ℕ} (h : leaf < c.leafCount) : c.next leaf < c.leafCount := by
  unfold PoolConfig.next
  split
  · exact c.leafCount_pos
  · omega

def Pooling.holding : Pooling → Option PoolBlock
  | .store _ b | .header b => some b
  | .idle | .load _ _ _ | .sub _ _ _ | .add _ | .read _ _ | .exchange _ _ _ | .deduct _ _
  | .clear _ | .wild => none

def Pooling.owes (leaf : ℕ) : Pooling → ℕ
  | .sub size _ l => if l = leaf then size + headerSize else 0
  | .idle | .load _ _ _ | .store _ _ | .header _ | .add _ | .read _ _ | .exchange _ _ _
  | .deduct _ _ | .clear _ | .wild => 0

/-- The thread is not inside of `free`. It has found room for what it is about to take, once. -/
def Pooling.InMalloc (c : PoolConfig) : Pooling → Prop
  | .idle | .store _ _ | .header _ => True
  | .load size _ leaf => size + headerSize < 2 ^ 31 ∧ leaf < c.leafCount
  | .sub size _ leaf => size + headerSize ≤ c.leafSize ∧ c.missing ≤ leaf ∧ leaf < c.leafCount
  | .add _ | .read _ _ | .exchange _ _ _ | .deduct _ _ | .clear _ | .wild => False

/-- Nobody runs during a call of `free`, there are `n` threads that allocate, and sizes are those
of an `int32_t`. -/
def PoolOp.Tame (n : ℕ) : PoolOp → Prop
  | .malloc t size => t < n ∧ size + headerSize < 2 ^ 31
  | .step _ | .write _ _ | .free _ _ => True
  | .begin _ _ => False

def inLeaf (leaf : ℕ) (blocks : List PoolBlock) : List Extent :=
  (blocks.filter (·.leaf = leaf)).map PoolBlock.extent

section InLeaf

variable {leaf : ℕ} {b : PoolBlock} {blocks blocks' : List PoolBlock}

theorem inLeaf_cons_self : inLeaf b.leaf (b :: blocks) = b.extent :: inLeaf b.leaf blocks := by
  simp [inLeaf]

theorem inLeaf_cons_of_ne (h : leaf ≠ b.leaf) : inLeaf leaf (b :: blocks) = inLeaf leaf blocks := by
  simp [inLeaf, h.symm]

theorem inLeaf_perm (h : blocks.Perm blocks') : (inLeaf leaf blocks).Perm (inLeaf leaf blocks') :=
  (h.filter _).map _

theorem extent_mem_inLeaf (h : b ∈ blocks) : b.extent ∈ inLeaf b.leaf blocks :=
  List.mem_map_of_mem (List.mem_filter.mpr ⟨h, by simp⟩)

theorem PoolBlock.Apart.symm {b b' : PoolBlock} (h : b.Apart b') : b'.Apart b :=
  fun hleaf => (h hleaf.symm).symm

instance : Std.Symm PoolBlock.Apart := ⟨fun _ _ h => h.symm⟩

theorem pairwise_apart (h : ∀ leaf, (inLeaf leaf blocks).Pairwise Extent.Apart) :
    blocks.Pairwise PoolBlock.Apart := by
  induction blocks with
  | nil => exact List.Pairwise.nil
  | cons b blocks ih =>
    refine List.pairwise_cons.mpr ⟨fun b' hb' hleaf => ?_, ih fun leaf => ?_⟩
    · have hb := h b.leaf
      rw [inLeaf_cons_self] at hb
      refine (List.pairwise_cons.mp hb).1 _ ?_
      rw [hleaf]
      exact extent_mem_inLeaf hb'
    · by_cases hleaf : leaf = b.leaf
      · subst hleaf
        have hb := h b.leaf
        rw [inLeaf_cons_self] at hb
        exact (List.pairwise_cons.mp hb).2
      · have hb := h leaf
        rwa [inLeaf_cons_of_ne hleaf] at hb

end InLeaf

section Headers

variable {headers : ℕ → ℕ → Option AllocHeader} {b b' : PoolBlock} {h : AllocHeader}

theorem putHeader_self : putHeader headers b.leaf b.offset h b.leaf b.offset = some h := by
  simp [putHeader, headerSize]

theorem putHeader_of_apart (hb : b'.Apart b) :
    putHeader headers b'.leaf b'.offset h b.leaf b.offset = headers b.leaf b.offset := by
  refine if_neg fun ⟨hleaf, hlt, hlt'⟩ => ?_
  have := hb hleaf.symm
  simp only [Extent.Apart, PoolBlock.extent] at this
  omega

theorem putByte_of_apart {byte : ℕ} (hbyte : byte < b'.size) (hb : b' = b ∨ b'.Apart b) :
    putByte headers b'.leaf (b'.offset + headerSize + byte) b.leaf b.offset =
      headers b.leaf b.offset := by
  refine if_neg fun ⟨hleaf, hle, hlt⟩ => ?_
  rcases hb with rfl | hb
  · omega
  · have := hb hleaf.symm
    simp only [Extent.Apart, PoolBlock.extent] at this
    omega

end Headers

namespace MemoryPool

/-- The bytes that `n` threads are about to take off a leaf. -/
def owing (n : ℕ) (threads : ℕ → Pooling) (leaf : ℕ) : ℕ :=
  ∑ t ∈ Finset.range n, (threads t).owes leaf

/-- What holds of every state that is reached, where `pending` are the blocks that threads have
taken and not returned. All threads together take at most the size of a leaf each too much. -/
structure Reached (c : PoolConfig) (n : ℕ) (s : MemoryPool) (pending : List (ℕ × PoolBlock)) :
    Prop where
  curLeaf : s.curLeaf < c.leafCount
  threads : ∀ t, (s.threads t).InMalloc c
  few : ∀ t, n ≤ t → s.threads t = .idle
  holds : ∀ t b, (t, b) ∈ pending ↔ (s.threads t).holding = some b
  nodup : pending.Nodup
  packed : ∀ leaf, c.missing ≤ leaf →
    Packed c.leafSize (s.leaves leaf).available (s.leaves leaf).deallocated
      (inLeaf leaf (pending.map Prod.snd ++ s.owned))
  missing : ∀ leaf < c.missing, (s.leaves leaf).available = 0
  placed : ∀ b ∈ pending.map Prod.snd ++ s.owned, c.missing ≤ b.leaf ∧ b.leaf < c.leafCount
  owed : ∀ leaf, c.missing ≤ leaf →
    (owing n s.threads leaf : ℤ) ≤ (s.leaves leaf).available + (n * c.leafSize : ℕ)
  headers : ∀ b ∈ s.owned, s.headerAt b = some (b.header c)

section Updates

variable {s : MemoryPool} {t u leaf : ℕ} {next next' : Pooling} {l l' : Leaf}

@[simp] theorem threads_setThread_self : (s.setThread t next).threads t = next := by
  simp [setThread]

theorem threads_setThread_of_ne (h : u ≠ t) : (s.setThread t next).threads u = s.threads u := by
  simp [setThread, h]

@[simp] theorem leaves_setLeaf_self : (s.setLeaf leaf l).leaves leaf = l := by
  simp [setLeaf]

theorem leaves_setLeaf_of_ne {leaf' : ℕ} (h : leaf' ≠ leaf) :
    (s.setLeaf leaf l).leaves leaf' = s.leaves leaf' := by
  simp [setLeaf, h]

@[simp] theorem setThread_setThread : (s.setThread t next).setThread t next' =
    s.setThread t next' := by
  simp [setThread]

@[simp] theorem setLeaf_setThread : (s.setThread t next).setLeaf leaf l =
    (s.setLeaf leaf l).setThread t next := rfl

@[simp] theorem setLeaf_setLeaf : (s.setLeaf leaf l).setLeaf leaf l' = s.setLeaf leaf l' := by
  simp [setLeaf]

@[simp] theorem leaves_setThread : (s.setThread t next).leaves = s.leaves := rfl

@[simp] theorem headerAt_setThread (b : PoolBlock) :
    (s.setThread t next).headerAt b = s.headerAt b := rfl

@[simp] theorem headerAt_setLeaf (b : PoolBlock) : (s.setLeaf leaf l).headerAt b = s.headerAt b :=
  rfl

@[simp] theorem threads_setLeaf : (s.setLeaf leaf l).threads = s.threads := rfl

theorem setThread_eq_self (h : s.threads t = next) : s.setThread t next = s := by
  simp [setThread, ← h]

end Updates

section Free

variable {s : MemoryPool} {t : ℕ} {b : PoolBlock} {h : AllocHeader} {deallocated available : ℤ}

theorem step_add (hb : s.headerAt b = some h) :
    ((s.setThread t (.add b)).step c t).1 =
      let deallocated := wrap32 ((s.leaves h.leafId).deallocated + (h.size + headerSize))
      (s.setLeaf h.leafId { s.leaves h.leafId with deallocated }).setThread t
        (.read b deallocated) := by
  simp [step, fetchAdd, withHeader, hb]

theorem step_read_eq (hb : s.headerAt b = some h)
    (hd : deallocated = wrap32 (c.leafSize - (s.leaves h.leafId).available)) :
    ((s.setThread t (.read b deallocated)).step c t).1 =
      s.setThread t (.exchange b deallocated (s.leaves h.leafId).available) := by
  simp [step, readAvailable, withHeader, hb, hd]

theorem step_read_ne (hb : s.headerAt b = some h)
    (hd : deallocated ≠ wrap32 (c.leafSize - (s.leaves h.leafId).available)) :
    ((s.setThread t (.read b deallocated)).step c t).1 = s.setThread t (.clear b) := by
  simp [step, readAvailable, withHeader, hb, hd]

theorem step_exchange (hb : s.headerAt b = some h)
    (ha : (s.leaves h.leafId).available = available) :
    ((s.setThread t (.exchange b deallocated available)).step c t).1 =
      (s.setLeaf h.leafId { s.leaves h.leafId with available := c.leafSize }).setThread t
        (.deduct b deallocated) := by
  simp [step, exchangeAvailable, withHeader, hb, ha]

theorem step_deduct (hb : s.headerAt b = some h) :
    ((s.setThread t (.deduct b deallocated)).step c t).1 =
      let l := s.leaves h.leafId
      (s.setLeaf h.leafId
        { l with deallocated := wrap32 (l.deallocated - deallocated) }).setThread t (.clear b) := by
  simp [step, deductDeallocated, withHeader, hb]

theorem step_clear : ((s.setThread t (.clear b)).step c t).1 =
    { s with headers := putHeader s.headers b.leaf b.offset ⟨0, 0, 0⟩ }.setThread t .idle := by
  simp [step, clearHeader, setThread]

theorem step_idle : ((s.setThread t .idle).step c t).1 = s.setThread t .idle := by
  simp [step]

end Free

section Owed

variable (threads : ℕ → Pooling) (leaf : ℕ) {t : ℕ}

theorem owing_update (ht : t < n) (next : Pooling) :
    owing n (Function.update threads t next) leaf + (threads t).owes leaf =
      owing n threads leaf + next.owes leaf := by
  have hmem : t ∈ Finset.range n := Finset.mem_range.mpr ht
  have hne : ∀ u ∈ (Finset.range n).erase t,
      (Function.update threads t next u).owes leaf = (threads u).owes leaf := by
    intro u hu
    rw [Function.update_of_ne (Finset.ne_of_mem_erase hu)]
  rw [owing, owing, ← Finset.add_sum_erase _ _ hmem, ← Finset.add_sum_erase _ _ hmem,
    Finset.sum_congr rfl hne, Function.update_self]
  omega

theorem owing_le (n : ℕ) (h : ∀ t, (threads t).InMalloc c) :
    owing n threads leaf ≤ n * c.leafSize := by
  have hone : ∀ t ∈ Finset.range n, (threads t).owes leaf ≤ c.leafSize := by
    intro t _
    have ht := h t
    cases hs : threads t with
    | sub size start l =>
      rw [hs] at ht
      simp only [Pooling.owes]
      split
      · exact ht.1
      · exact Nat.zero_le _
    | _ => exact Nat.zero_le _
  have hsum := Finset.sum_le_card_nsmul _ _ _ hone
  rwa [Finset.card_range, nsmul_eq_mul, Nat.cast_id] at hsum

theorem owes_le_owing (ht : t < n) : (threads t).owes leaf ≤ owing n threads leaf :=
  Finset.single_le_sum (f := fun t => (threads t).owes leaf) (fun _ _ => Nat.zero_le _)
    (Finset.mem_range.mpr ht)

theorem owing_update_same (ht : t < n) {next : Pooling}
    (hnext : next.owes leaf = (threads t).owes leaf) :
    owing n (Function.update threads t next) leaf = owing n threads leaf := by
  have howing := owing_update threads leaf ht next
  omega

end Owed

section Steps

variable {s : MemoryPool} {pending : List (ℕ × PoolBlock)} {t leaf size start : ℕ} {b : PoolBlock}

theorem realSize_eq (h : size + headerSize < 2 ^ 31) : realSize size = (size + headerSize : ℕ) :=
  (toInt_ofNat_eq_iff _).mpr h

theorem inMalloc_setThread (h : ∀ u, (s.threads u).InMalloc c) (next : Pooling)
    (hnext : next.InMalloc c) (u : ℕ) : ((s.setThread t next).threads u).InMalloc c := by
  by_cases hu : u = t
  · subst hu
    rwa [threads_setThread_self]
  · rw [threads_setThread_of_ne hu]
    exact h u

theorem few_setThread (h : ∀ u, n ≤ u → s.threads u = .idle) (ht : t < n) (next : Pooling) (u : ℕ)
    (hu : n ≤ u) : (s.setThread t next).threads u = .idle := by
  rw [threads_setThread_of_ne (by omega)]
  exact h u hu

theorem Reached.lt_of_threads (h : s.Reached c n pending) (ht : s.threads t ≠ .idle) : t < n :=
  Nat.lt_of_not_le fun hn => ht (h.few t hn)

theorem Reached.goOn (h : s.Reached c n pending) (hn : t < n) {next : Pooling}
    (ht : (s.threads t).holding = none) (hnext : next.holding = none) (hin : next.InMalloc c)
    (howed : ∀ leaf, c.missing ≤ leaf → (owing n (Function.update s.threads t next) leaf : ℤ) ≤
      (s.leaves leaf).available + (n * c.leafSize : ℕ)) :
    (s.setThread t next).Reached c n pending where
  curLeaf := h.curLeaf
  threads := inMalloc_setThread h.threads next hin
  few := few_setThread h.few hn next
  holds u b := by
    rw [h.holds]
    by_cases hu : u = t
    · subst hu
      rw [threads_setThread_self, ht, hnext]
    · rw [threads_setThread_of_ne hu]
  nodup := h.nodup
  packed := h.packed
  missing := h.missing
  placed := h.placed
  owed := howed
  headers := h.headers

theorem Reached.rest (h : s.Reached c n pending) (hn : t < n) {next : Pooling}
    (ht : (s.threads t).holding = none) (hnext : next.holding = none) (hin : next.InMalloc c)
    (howes : ∀ leaf, next.owes leaf = 0) : (s.setThread t next).Reached c n pending := by
  refine h.goOn hn ht hnext hin fun leaf hleaf => ?_
  have howed := owing_update s.threads leaf hn next
  have hold := h.owed leaf hleaf
  rw [howes leaf] at howed
  omega

theorem Reached.malloc (h : s.Reached c n pending) (ht : t < n)
    (hsize : size + headerSize < 2 ^ 31) : (s.malloc t size).Reached c n pending := by
  unfold MemoryPool.malloc
  split
  · next hidle =>
    exact h.rest ht (by simp [hidle, Pooling.holding]) rfl ⟨hsize, h.curLeaf⟩ fun _ => rfl
  · exact h

theorem Reached.advance (h : s.Reached c n pending) (hn : t < n)
    (ht : (s.threads t).holding = none) (hsize : size + headerSize < 2 ^ 31)
    (hleaf : leaf < c.leafCount) : (s.advance c t size start leaf).1.Reached c n pending := by
  unfold MemoryPool.advance
  split
  · exact h.rest hn ht rfl trivial fun _ => rfl
  · exact h.rest hn ht rfl ⟨hsize, c.next_lt hleaf⟩ fun _ => rfl

theorem Reached.available_le (h : s.Reached c n pending) (hleaf : c.missing ≤ leaf) :
    (s.leaves leaf).available ≤ c.leafSize := by
  have hpacked := h.packed leaf hleaf
  rcases Int.lt_or_le (s.leaves leaf).available 0 with hneg | hpos
  · omega
  · have hcount := hpacked.counted hpos
    have hnonneg := hpacked.nonneg
    omega

theorem Reached.loadAvailable (h : s.Reached c n pending)
    (ht : s.threads t = .load size start leaf) :
    (s.loadAvailable c t size start leaf).1.Reached c n pending := by
  have hin := h.threads t
  have hhold : (s.threads t).holding = none := by simp [ht, Pooling.holding]
  have hn : t < n := h.lt_of_threads (by simp [ht])
  rw [ht] at hin
  unfold MemoryPool.loadAvailable
  split
  · exact h.rest hn hhold rfl trivial fun _ => rfl
  next hpos =>
  have hleaf : c.missing ≤ leaf := Nat.le_of_not_lt fun hlt =>
    hpos (by rw [h.missing leaf hlt])
  split
  · next hroom =>
    rw [realSize_eq hin.1] at hroom
    have hfits := h.available_le hleaf
    have hsub : (Pooling.sub size start leaf).InMalloc c := ⟨by omega, hleaf, hin.2⟩
    refine h.goOn hn hhold rfl hsub fun leaf' hleaf' => ?_
    by_cases hne : leaf' = leaf
    · subst hne
      have hle := owing_le _ leaf' n (inMalloc_setThread (t := t) h.threads _ hsub)
      exact (Int.ofNat_le.mpr hle).trans (by omega)
    · rw [owing_update_same _ _ hn (by simp [Pooling.owes, ht, Ne.symm hne])]
      exact h.owed leaf' hleaf'
  · exact h.advance hn hhold hin.1 hin.2

theorem Reached.owed_sub (h : s.Reached c n pending) (ht : s.threads t = .sub size start leaf)
    (next : Pooling) (hnext : ∀ l, next.owes l = 0) {l : Leaf}
    (hl : l.available = (s.leaves leaf).available - (size + headerSize : ℕ))
    (leaf' : ℕ) (hleaf' : c.missing ≤ leaf') :
    (owing n (Function.update s.threads t next) leaf' : ℤ) ≤
      ((s.setLeaf leaf l).leaves leaf').available + (n * c.leafSize : ℕ) := by
  have hn : t < n := h.lt_of_threads (by simp [ht])
  have howed := owing_update s.threads leaf' hn next
  have hold := h.owed leaf' hleaf'
  rw [ht, hnext leaf'] at howed
  by_cases hne : leaf' = leaf
  · subst hne
    simp only [Pooling.owes, if_true] at howed
    rw [leaves_setLeaf_self, hl]
    omega
  · simp only [Pooling.owes, if_neg (Ne.symm hne)] at howed
    rw [leaves_setLeaf_of_ne hne]
    omega

theorem Reached.reserve (h : s.Reached c n pending) (hn : t < n)
    (ht : (s.threads t).holding = none) (hleaf : c.missing ≤ b.leaf ∧ b.leaf < c.leafCount)
    (next : Pooling) (hnext : next.holding = some b) (hin : next.InMalloc c) {l : Leaf}
    (hl : Packed c.leafSize l.available l.deallocated
      (b.extent :: inLeaf b.leaf (pending.map Prod.snd ++ s.owned)))
    (howed : ∀ leaf, c.missing ≤ leaf → (owing n (Function.update s.threads t next) leaf : ℤ) ≤
      ((s.setLeaf b.leaf l).leaves leaf).available + (n * c.leafSize : ℕ)) :
    ((s.setLeaf b.leaf l).setThread t next).Reached c n ((t, b) :: pending) where
  curLeaf := h.curLeaf
  threads := inMalloc_setThread h.threads next hin
  few := few_setThread h.few hn next
  holds u b' := by
    rw [List.mem_cons, h.holds, Prod.mk.injEq]
    by_cases hu : u = t
    · subst hu
      simp [ht, hnext, eq_comm]
    · simp [threads_setThread_of_ne hu, hu]
  nodup := by
    refine List.nodup_cons.mpr ⟨fun hmem => ?_, h.nodup⟩
    rw [h.holds, ht] at hmem
    cases hmem
  packed leaf hleaf' := by
    by_cases hne : leaf = b.leaf
    · subst hne
      rw [List.map_cons, List.cons_append, inLeaf_cons_self, leaves_setThread,
        leaves_setLeaf_self]
      exact hl
    · rw [List.map_cons, List.cons_append, inLeaf_cons_of_ne hne, leaves_setThread,
        leaves_setLeaf_of_ne hne]
      exact h.packed leaf hleaf'
  missing leaf hlt := by
    rw [leaves_setThread, leaves_setLeaf_of_ne (by omega)]
    exact h.missing leaf hlt
  placed := List.forall_mem_cons.mpr ⟨hleaf, h.placed⟩
  owed := howed
  headers := h.headers

theorem Reached.overdraw (h : s.Reached c n pending) (ht : s.threads t = .sub size start leaf)
    {available : ℤ} (ha : available = (s.leaves leaf).available - (size + headerSize : ℕ))
    (hneg : available < 0) (next : Pooling) (hnext : next.holding = none) (hin : next.InMalloc c)
    (howes : ∀ l, next.owes l = 0) :
    ((s.setLeaf leaf { s.leaves leaf with available }).setThread t next).Reached c n pending := by
  have hthread := h.threads t
  rw [ht] at hthread
  have hn : t < n := h.lt_of_threads (by simp [ht])
  exact {
    curLeaf := h.curLeaf
    threads := inMalloc_setThread h.threads next hin
    few := few_setThread h.few hn next
    holds := fun u b => by
      rw [h.holds]
      by_cases hu : u = t
      · subst hu
        rw [threads_setThread_self, ht, hnext]
        rfl
      · rw [threads_setThread_of_ne hu]
        rfl
    nodup := h.nodup
    packed := fun leaf' hleaf' => by
      rw [leaves_setThread]
      by_cases hne : leaf' = leaf
      · subst hne
        rw [leaves_setLeaf_self, ha]
        exact (h.packed leaf' hleaf').overdraw (by omega)
      · rw [leaves_setLeaf_of_ne hne]
        exact h.packed leaf' hleaf'
    missing := fun leaf' hlt => by
      rw [leaves_setThread, leaves_setLeaf_of_ne (by have := hthread.2.1; omega)]
      exact h.missing leaf' hlt
    placed := h.placed
    owed := h.owed_sub ht next howes ha
    headers := h.headers }

/-- With few enough threads the count does not wrap around. -/
theorem Reached.wrap_sub (h : s.Reached c n pending) (hsmall : (n + 1) * c.leafSize < 2 ^ 31)
    (ht : s.threads t = .sub size start leaf) :
    wrap32 ((s.leaves leaf).available - realSize size) =
      (s.leaves leaf).available - (size + headerSize : ℕ) := by
  have hthread := h.threads t
  rw [ht] at hthread
  have hn : t < n := h.lt_of_threads (by simp [ht])
  have hlt := c.leafSize_lt
  have hle := h.available_le hthread.2.1
  have howed := h.owed leaf hthread.2.1
  have hone : size + headerSize ≤ owing n s.threads leaf := by
    have howes := owes_le_owing s.threads leaf hn
    simpa only [ht, Pooling.owes, if_true] using howes
  rw [Nat.succ_mul] at hsmall
  rw [realSize_eq (by omega)]
  exact wrap32_eq (by omega) (by omega)

theorem Reached.fetchSub (h : s.Reached c n pending) (hsmall : (n + 1) * c.leafSize < 2 ^ 31)
    (ht : s.threads t = .sub size start leaf) :
    ∃ pending', (s.fetchSub c t size start leaf).1.Reached c n pending' := by
  obtain ⟨hsize, hmissing, hleaf⟩ : size + headerSize ≤ c.leafSize ∧ c.missing ≤ leaf ∧
      leaf < c.leafCount := by
    have hin := h.threads t
    rwa [ht] at hin
  have hn : t < n := h.lt_of_threads (by simp [ht])
  have hhold : (s.threads t).holding = none := by simp [ht, Pooling.holding]
  have hpacked := h.packed leaf hmissing
  unfold MemoryPool.fetchSub
  rw [h.wrap_sub hsmall ht]
  simp only
  split
  · next hafter =>
    have hl := hpacked.reserve (n := size + headerSize) (by simp [headerSize]) hafter
    have hreserve := fun (next : Pooling) hnext hin howes => h.reserve (t := t)
      (b := ⟨leaf, ((s.leaves leaf).available - (size + headerSize : ℕ)).toNat, size⟩) hn hhold
      ⟨hmissing, hleaf⟩ next hnext hin (l := ⟨_, _⟩) hl (h.owed_sub ht next howes rfl)
    split
    · exact ⟨_, hreserve (.store start _) rfl trivial fun _ => rfl⟩
    · exact ⟨_, hreserve (.header _) rfl trivial fun _ => rfl⟩
  · next hafter =>
    have hlt := c.leafSize_lt
    refine ⟨pending, ?_⟩
    unfold MemoryPool.advance
    split
    · exact h.overdraw ht rfl (by omega) .idle rfl trivial fun _ => rfl
    · exact h.overdraw ht rfl (by omega) (.load size start (c.next leaf)) rfl
        ⟨by omega, c.next_lt hleaf⟩ fun _ => rfl

theorem Reached.storeLeaf (h : s.Reached c n pending) (ht : s.threads t = .store start b) :
    (s.storeLeaf c t start b).Reached c n pending := by
  have hn : t < n := h.lt_of_threads (by simp [ht])
  exact {
    curLeaf := by
      simp only [MemoryPool.storeLeaf]
      split
      · exact c.leafCount_pos
      · omega
    threads := inMalloc_setThread h.threads (.header b) trivial
    few := few_setThread h.few hn (.header b)
    holds := fun u b' => by
      rw [h.holds]
      change _ ↔ ((s.setThread t (.header b)).threads u).holding = some b'
      by_cases hu : u = t
      · subst hu
        rw [threads_setThread_self, ht]
        rfl
      · rw [threads_setThread_of_ne hu]
    nodup := h.nodup
    packed := h.packed
    missing := h.missing
    placed := h.placed
    owed := fun leaf hleaf => by
      have hsame : owing n (Function.update s.threads t (.header b)) leaf = _ :=
        owing_update_same _ leaf hn (by rw [ht]; rfl)
      exact (congrArg Int.ofNat hsame).trans_le (h.owed leaf hleaf)
    headers := h.headers }

theorem Reached.pairwise (h : s.Reached c n pending) :
    (pending.map Prod.snd ++ s.owned).Pairwise PoolBlock.Apart := by
  refine pairwise_apart fun leaf => ?_
  by_cases hleaf : c.missing ≤ leaf
  · exact (h.packed leaf hleaf).apart
  · have hnil : inLeaf leaf (pending.map Prod.snd ++ s.owned) = [] := by
      rw [inLeaf, List.map_eq_nil_iff, List.filter_eq_nil_iff]
      intro b hb hb'
      exact hleaf (of_decide_eq_true hb' ▸ (h.placed b hb).1)
    rw [hnil]
    exact List.Pairwise.nil

theorem Reached.writeHeader (h : s.Reached c n pending) (ht : s.threads t = .header b) :
    (s.writeHeader c t b).Reached c n (pending.erase (t, b)) := by
  have hn : t < n := h.lt_of_threads (by simp [ht])
  have hmem : (t, b) ∈ pending := (h.holds t b).mpr (by simp [ht, Pooling.holding])
  have hperm : (pending.map Prod.snd ++ s.owned).Perm
      ((pending.erase (t, b)).map Prod.snd ++ b :: s.owned) := by
    refine List.Perm.trans ?_ List.perm_middle.symm
    exact ((List.perm_cons_erase hmem).map Prod.snd).append_right s.owned
  exact {
    curLeaf := h.curLeaf
    threads := inMalloc_setThread h.threads .idle trivial
    few := few_setThread h.few hn .idle
    holds := fun u b' => by
      change _ ↔ ((s.setThread t .idle).threads u).holding = some b'
      rw [h.nodup.mem_erase_iff, h.holds]
      by_cases hu : u = t
      · subst hu
        simp [ht, Pooling.holding, eq_comm]
      · simp [threads_setThread_of_ne hu, hu]
    nodup := h.nodup.erase _
    packed := fun leaf hleaf => (h.packed leaf hleaf).perm (inLeaf_perm hperm)
    missing := h.missing
    placed := fun b' hb' => h.placed b' (hperm.mem_iff.mpr hb')
    owed := fun leaf hleaf => by
      have hsame : owing n (Function.update s.threads t .idle) leaf = _ :=
        owing_update_same _ leaf hn (by rw [ht]; rfl)
      exact (congrArg Int.ofNat hsame).trans_le (h.owed leaf hleaf)
    headers := by
      refine List.forall_mem_cons.mpr ⟨putHeader_self, fun b' hb' => ?_⟩
      have happart := (List.pairwise_append.mp h.pairwise).2.2 b
        (List.mem_map_of_mem hmem) b' hb'
      exact (putHeader_of_apart happart).trans (h.headers b' hb') }

theorem Reached.write (h : s.Reached c n pending) (b : PoolBlock) (byte : ℕ) :
    (s.write b byte).Reached c n pending := by
  unfold MemoryPool.write
  split
  · next hb =>
    refine { h with headers := fun b' hb' => ?_ }
    have howned := (List.pairwise_append.mp h.pairwise).2.1
    have happart : b = b' ∨ b.Apart b' := or_iff_not_imp_left.mpr fun hne =>
      howned.forall hb.1 hb' hne
    exact (putByte_of_apart hb.2 happart).trans (h.headers b' hb')
  · exact h

/-- The pool when a block was given back with nobody else running. -/
def released (c : PoolConfig) (s : MemoryPool) (b : PoolBlock) : MemoryPool :=
  let l := s.leaves b.leaf
  let deallocated := l.deallocated + (b.size + headerSize : ℕ)
  { s with
    leaves := Function.update s.leaves b.leaf <|
      if deallocated = c.leafSize - l.available then ⟨c.leafSize, 0⟩
      else { l with deallocated }
    headers := putHeader s.headers b.leaf b.offset ⟨0, 0, 0⟩
    owned := s.owned.erase b }

theorem isOwn_header (hleaf : b.leaf < c.leafCount) (hsize : b.size < c.leafSize) :
    (b.header c).isOwn c = true := by
  have hint : (BitVec.ofNat 32 b.size).toInt = b.size :=
    (toInt_ofNat_eq_iff _).mpr (hsize.trans c.leafSize_lt)
  simp [AllocHeader.isOwn, PoolBlock.header, hint, hleaf, hsize]

theorem Reached.packed_of_owned (h : s.Reached c n pending) (hb : b ∈ s.owned) :
    Packed c.leafSize (s.leaves b.leaf).available (s.leaves b.leaf).deallocated
      (inLeaf b.leaf (pending.map Prod.snd ++ s.owned)) :=
  h.packed b.leaf (h.placed b (List.mem_append_right _ hb)).1

theorem Reached.size_lt (h : s.Reached c n pending) (hb : b ∈ s.owned) :
    b.offset + headerSize + b.size ≤ c.leafSize := by
  have := (h.packed_of_owned hb).inside b.extent (extent_mem_inLeaf (List.mem_append_right _ hb))
  simp only [PoolBlock.extent] at this
  omega

theorem perm_erase (pending : List (ℕ × PoolBlock)) (hb : b ∈ s.owned) :
    (pending.map Prod.snd ++ s.owned).Perm (b :: (pending.map Prod.snd ++ s.owned.erase b)) :=
  ((List.perm_cons_erase hb).append_left _).trans List.perm_middle

/-- What `free` needs of a block: its header, its leaf, and counts that do not wrap around. -/
structure Releasable (c : PoolConfig) (s : MemoryPool) (b : PoolBlock) : Prop where
  owned : b ∈ s.owned
  header : s.headerAt b = some (b.header c)
  leaf : c.missing ≤ b.leaf ∧ b.leaf < c.leafCount
  size : b.size < c.leafSize
  back : wrap32 ((s.leaves b.leaf).deallocated + ((b.size : ℤ) + headerSize)) =
    (s.leaves b.leaf).deallocated + ((b.size : ℤ) + headerSize)
  taken : wrap32 (c.leafSize - (s.leaves b.leaf).available) =
    c.leafSize - (s.leaves b.leaf).available

theorem Releasable.begin_eq (h : s.Releasable c b) (ht : s.threads t = .idle) :
    s.begin c t b = ({ s with owned := s.owned.erase b }.setThread t (.add b), .silent) := by
  have hheader : { s with owned := s.owned.erase b }.headerAt b = some (b.header c) := h.header
  have hleaf : c.missing ≤ (b.header c).leafId := h.leaf.1
  simp only [MemoryPool.begin, ht, h.owned, and_self, if_true, hheader,
    isOwn_header h.leaf.2 h.size, hleaf, decide_true, Bool.and_self]

theorem Releasable.free_eq (h : s.Releasable c b) (ht : s.threads t = .idle) :
    s.free c t b = (s.released c b, .silent) := by
  have hint : (b.header c).size = b.size :=
    (toInt_ofNat_eq_iff _).mpr (h.size.trans c.leafSize_lt)
  have hleafId : (b.header c).leafId = b.leaf := rfl
  have hheader : { s with owned := s.owned.erase b }.headerAt b = some (b.header c) := h.header
  unfold MemoryPool.free
  rw [if_pos ⟨ht, h.owned⟩, h.begin_eq ht]
  simp only [Function.iterate_succ_apply, Function.iterate_zero_apply]
  rw [step_add hheader, hleafId, hint]
  simp only [h.back]
  by_cases hd : (s.leaves b.leaf).deallocated + ((b.size : ℤ) + headerSize) =
      c.leafSize - (s.leaves b.leaf).available
  · rw [step_read_eq (by simpa using hheader) (by simpa [hleafId, h.taken] using hd), step_exchange
      (by simpa using hheader) rfl, step_deduct (by simpa using hheader), step_clear]
    simp only [hleafId, leaves_setLeaf_self, setLeaf_setLeaf, Int.sub_self]
    rw [setThread_eq_self (by exact ht)]
    simp only [released, Nat.cast_add, if_pos hd]
    rfl
  · rw [step_read_ne (by simpa using hheader) (by simpa [hleafId, h.taken] using hd), step_clear,
      step_idle, step_idle, setThread_eq_self (by exact ht)]
    simp only [released, Nat.cast_add, if_neg hd]
    rfl

theorem Reached.releasable (h : s.Reached c n pending) (hsmall : (n + 1) * c.leafSize < 2 ^ 31)
    (hb : b ∈ s.owned) : s.Releasable c b := by
  have hplaced := h.placed b (List.mem_append_right _ hb)
  have hlt := h.size_lt hb
  have hpacked := (h.packed_of_owned hb).perm (inLeaf_perm (perm_erase pending hb))
  rw [inLeaf_cons_self] at hpacked
  have hnonneg := hpacked.nonneg
  have hle := h.available_le hplaced.1
  have howed := h.owed b.leaf hplaced.1
  have hcount : (s.leaves b.leaf).deallocated + ((b.size : ℤ) + headerSize) ≤ c.leafSize := by
    have htotal := hpacked.total_le
    rw [total_cons] at htotal
    simp only [PoolBlock.extent] at htotal
    omega
  rw [Nat.succ_mul] at hsmall
  refine ⟨hb, h.headers b hb, hplaced, ?_, wrap32_eq (by omega) (by omega),
    wrap32_eq (by omega) (by omega)⟩
  simp only [headerSize] at hlt
  omega

theorem Reached.packed_released (h : s.Reached c n pending) (hb : b ∈ s.owned) :
    let l := (s.released c b).leaves b.leaf
    Packed c.leafSize l.available l.deallocated
      (inLeaf b.leaf (pending.map Prod.snd ++ s.owned.erase b)) := by
  have hpacked := (h.packed_of_owned hb).perm (inLeaf_perm (perm_erase pending hb))
  rw [inLeaf_cons_self] at hpacked
  simp only [MemoryPool.released, Function.update_self]
  split
  · next hd =>
    rw [(hpacked.complete hd).2]
    exact packed_new c.leafSize
  · next hd => exact hpacked.release hd

theorem Reached.released (h : s.Reached c n pending) (hb : b ∈ s.owned) :
    (s.released c b).Reached c n pending := by
  have hperm := perm_erase pending hb
  have hsub : ∀ b' ∈ pending.map Prod.snd ++ s.owned.erase b,
      b' ∈ pending.map Prod.snd ++ s.owned := fun b' hb' =>
    hperm.mem_iff.mpr (List.mem_cons_of_mem b hb')
  exact {
    curLeaf := h.curLeaf
    threads := h.threads
    few := h.few
    holds := h.holds
    nodup := h.nodup
    packed := fun leaf hleaf' => by
      by_cases hleaf : leaf = b.leaf
      · subst hleaf
        exact h.packed_released hb
      · have hpacked := (h.packed leaf hleaf').perm (inLeaf_perm hperm)
        rw [inLeaf_cons_of_ne hleaf] at hpacked
        simpa [MemoryPool.released, hleaf] using hpacked
    missing := fun leaf hlt => by
      have hne : leaf ≠ b.leaf := by
        have := (h.placed b (List.mem_append_right _ hb)).1
        omega
      simpa [MemoryPool.released, hne] using h.missing leaf hlt
    placed := fun b' hb' => h.placed b' (hsub b' hb')
    owed := fun leaf hleaf' => by
      have hold := h.owed leaf hleaf'
      by_cases hleaf : leaf = b.leaf
      · subst hleaf
        simp only [MemoryPool.released, Function.update_self]
        split
        · have hle := owing_le _ b.leaf n h.threads
          simp only
          omega
        · exact hold
      · simpa [MemoryPool.released, hleaf] using hold
    headers := fun b' hb' => by
      have happart := (List.pairwise_append.mp h.pairwise).2.1
      have hcons := (List.perm_cons_erase hb).pairwise_iff (fun hx => PoolBlock.Apart.symm hx) |>.mp
        happart
      have hb'' := (List.pairwise_cons.mp hcons).1 b' hb'
      exact (putHeader_of_apart hb'').trans (h.headers b' (List.mem_of_mem_erase hb')) }

theorem Reached.free (h : s.Reached c n pending) (hsmall : (n + 1) * c.leafSize < 2 ^ 31) (t : ℕ)
    (b : PoolBlock) : (s.free c t b).1.Reached c n pending := by
  by_cases hb : s.threads t = .idle ∧ b ∈ s.owned
  · rw [(h.releasable hsmall hb.2).free_eq hb.1]
    exact h.released hb.2
  · rw [MemoryPool.free, if_neg hb]
    exact h

theorem Reached.step (h : s.Reached c n pending) (hsmall : (n + 1) * c.leafSize < 2 ^ 31) (t : ℕ) :
    ∃ pending', (s.step c t).1.Reached c n pending' := by
  have hin := h.threads t
  unfold MemoryPool.step
  cases ht : s.threads t with
  | idle => exact ⟨pending, h⟩
  | load size start leaf => exact ⟨pending, h.loadAvailable ht⟩
  | sub size start leaf => exact h.fetchSub hsmall ht
  | store start b => exact ⟨pending, h.storeLeaf ht⟩
  | header b => exact ⟨_, h.writeHeader ht⟩
  | add | read | exchange | deduct | clear | wild => simp [ht, Pooling.InMalloc] at hin

theorem Reached.run_step (h : s.Reached c n pending) (hsmall : (n + 1) * c.leafSize < 2 ^ 31)
    {op : PoolOp} (hop : op.Tame n) :
    ∃ pending', ((memoryPool c).step s op).1.Reached c n pending' := by
  cases op with
  | malloc t size => exact ⟨pending, h.malloc hop.1 hop.2⟩
  | step t => exact h.step hsmall t
  | write b byte => exact ⟨pending, h.write b byte⟩
  | free t b => exact ⟨pending, h.free hsmall t b⟩
  | begin t b => exact hop.elim

theorem reached_new (c : PoolConfig) (n : ℕ) : (new c).Reached c n [] where
  curLeaf := c.leafCount_pos
  threads _ := trivial
  few _ _ := rfl
  holds t b := by simp [new, Pooling.holding]
  nodup := List.nodup_nil
  packed leaf hleaf := by
    simp only [new, if_neg (Nat.not_lt.mpr hleaf)]
    exact packed_new c.leafSize
  missing leaf hlt := by simp only [new, if_pos hlt]
  placed b hb := absurd hb List.not_mem_nil
  owed leaf hleaf := by
    have hle := owing_le (c := c) (new c).threads leaf n fun _ => trivial
    simp only [new, if_neg (Nat.not_lt.mpr hleaf)] at hle ⊢
    omega
  headers b hb := absurd hb List.not_mem_nil

theorem exists_reached (hsmall : (n + 1) * c.leafSize < 2 ^ 31) {ops : List PoolOp}
    (hops : ∀ op ∈ ops, op.Tame n) (h : ∃ pending, s.Reached c n pending) :
    ∃ pending, (((memoryPool c).run s ops).1).Reached c n pending :=
  Machine.run_invariant (memoryPool c) (P := fun s => ∃ pending, s.Reached c n pending)
    (fun _ _ ⟨_, hs⟩ hop => hs.run_step hsmall hop) h (Machine.along_of_forall_mem _ hops)

end Steps

section Lost

variable {s : MemoryPool} {pending : List (ℕ × PoolBlock)} {t leaf : ℕ} {b : PoolBlock}

theorem leaves_advance (size start leaf : ℕ) :
    (s.advance c t size start leaf).1.leaves = s.leaves := by
  unfold MemoryPool.advance
  split <;> rfl

theorem leaves_loadAvailable (size start leaf : ℕ) :
    (s.loadAvailable c t size start leaf).1.leaves = s.leaves := by
  unfold MemoryPool.loadAvailable
  split
  · rfl
  · split
    · rfl
    · exact leaves_advance size start leaf

theorem leaves_fetchSub (size start leaf : ℕ) :
    (s.fetchSub c t size start leaf).1.leaves =
      (s.setLeaf leaf { s.leaves leaf with
        available := wrap32 ((s.leaves leaf).available - realSize size) }).leaves := by
  simp only [MemoryPool.fetchSub]
  split
  · split <;> rfl
  · exact leaves_advance size start leaf

theorem Reached.available_step_le (h : s.Reached c n pending)
    (hsmall : (n + 1) * c.leafSize < 2 ^ 31) (t leaf : ℕ) :
    ((s.step c t).1.leaves leaf).available ≤ (s.leaves leaf).available := by
  have hin := h.threads t
  unfold MemoryPool.step
  cases ht : s.threads t with
  | idle | store | header => exact Int.le_refl _
  | load size start leaf' => exact Int.le_of_eq (by simp only [leaves_loadAvailable])
  | sub size start leaf' =>
    simp only [leaves_fetchSub, h.wrap_sub hsmall ht]
    by_cases hleaf : leaf = leaf'
    · subst hleaf
      rw [leaves_setLeaf_self]
      simp only
      omega
    · rw [leaves_setLeaf_of_ne hleaf]
  | add | read | exchange | deduct | clear | wild => simp [ht, Pooling.InMalloc] at hin

theorem Reached.available_released_neg (h : s.Reached c n pending) (hb : b ∈ s.owned)
    (ha : (s.leaves leaf).available < 0) : ((s.released c b).leaves leaf).available < 0 := by
  by_cases hleaf : leaf = b.leaf
  · subst hleaf
    have hpacked := (h.packed_of_owned hb).perm (inLeaf_perm (perm_erase pending hb))
    rw [inLeaf_cons_self] at hpacked
    simp only [MemoryPool.released, Function.update_self]
    split
    · next hd =>
      have := (hpacked.complete hd).1
      omega
    · exact ha
  · simpa [MemoryPool.released, hleaf] using ha

theorem Reached.available_neg (h : s.Reached c n pending) (hsmall : (n + 1) * c.leafSize < 2 ^ 31)
    {op : PoolOp} (hop : op.Tame n) (ha : (s.leaves leaf).available < 0) :
    (((memoryPool c).step s op).1.leaves leaf).available < 0 := by
  cases op with
  | malloc t size =>
    simp only [memoryPool, MemoryPool.malloc]
    split <;> exact ha
  | step t => exact Int.lt_of_le_of_lt (h.available_step_le hsmall t leaf) ha
  | write b byte =>
    simp only [memoryPool, MemoryPool.write]
    split <;> exact ha
  | free t b =>
    simp only [memoryPool]
    by_cases hb : s.threads t = .idle ∧ b ∈ s.owned
    · rw [(h.releasable hsmall hb.2).free_eq hb.1]
      exact h.available_released_neg hb.2 ha
    · rw [MemoryPool.free, if_neg hb]
      exact ha
  | begin t b => exact hop.elim

end Lost

section Access

variable {s : MemoryPool} {pending : List (ℕ × PoolBlock)} {leaf : ℕ} {b : PoolBlock}

theorem Reached.checkAccess_iff (h : s.Reached c n pending) (hb : b ∈ s.owned) (target size : ℕ) :
    s.checkAccess c b target size = true ↔
      b.offset + headerSize ≤ target ∧ target + size ≤ b.offset + headerSize + b.size := by
  have hlt := h.size_lt hb
  have hplaced := h.placed b (List.mem_append_right _ hb)
  have hown : (b.header c).isOwn c = true :=
    isOwn_header hplaced.2 (by simp [headerSize] at hlt; omega)
  have hint : (b.header c).size = b.size :=
    (toInt_ofNat_eq_iff _).mpr (by have := c.leafSize_lt; omega)
  have hid : (b.header c).leafId = b.leaf := rfl
  simp only [checkAccess, h.headers b hb, hown, hint, hid, beq_self_eq_true, Bool.true_and,
    Bool.and_eq_true, decide_eq_true_eq, hplaced.1, decide_true, Bool.true_and, Bool.and_true]
  omega

/-- A leaf without a block is whole unless it is lost. -/
theorem Reached.leaf_eq (h : s.Reached c n pending) (hleaf : c.missing ≤ leaf)
    (howned : ∀ b ∈ s.owned, b.leaf ≠ leaf)
    (hheld : ∀ t b, (s.threads t).holding = some b → b.leaf ≠ leaf)
    (ha : 0 ≤ (s.leaves leaf).available) : s.leaves leaf = ⟨c.leafSize, 0⟩ := by
  have hnil : inLeaf leaf (pending.map Prod.snd ++ s.owned) = [] := by
    rw [inLeaf, List.map_eq_nil_iff, List.filter_eq_nil_iff]
    intro b hb
    rw [decide_eq_true_eq]
    rcases List.mem_append.mp hb with hb | hb
    · obtain ⟨⟨t, b⟩, hmem, rfl⟩ := List.mem_map.mp hb
      exact hheld t b ((h.holds t b).mp hmem)
    · exact howned b hb
  have hpacked := h.packed leaf hleaf
  rw [hnil] at hpacked
  have hd := hpacked.whole rfl ha
  have hcount := hpacked.counted ha
  rw [total_nil] at hcount
  cases hl : s.leaves leaf with
  | mk available deallocated =>
    rw [hl] at hd hcount
    simp only [Leaf.mk.injEq] at hd hcount ⊢
    omega

end Access

end MemoryPool

/-- A leaf from which more was taken than it had stays so whatever happens later, with sizes that
an `int32_t` holds and in so few threads that the counts do not wrap around, as long as nobody else
runs during a call of `free`. A call of `malloc` that comes to it goes to the system, though other
leaves may have room. -/
theorem memoryPool_leaf_lost (c : PoolConfig) (n : ℕ) (hsmall : (n + 1) * c.leafSize < 2 ^ 31)
    (ops more : List PoolOp) (hops : ∀ op ∈ ops ++ more, op.Tame n) (leaf : ℕ)
    (hlost : (((memoryPool c).run (.new c) ops).1.leaves leaf).available < 0) :
    let s := ((memoryPool c).run (.new c) (ops ++ more)).1
    (s.leaves leaf).available < 0 ∧
      ∀ t size start, s.threads t = .load size start leaf → (s.step c t).2 = .escalated := by
  rw [List.forall_mem_append] at hops
  have hreached := MemoryPool.exists_reached hsmall hops.1 ⟨[], MemoryPool.reached_new c n⟩
  have hneg : (((memoryPool c).run (.new c) (ops ++ more)).1.leaves leaf).available < 0 := by
    rw [Machine.run_append]
    refine (Machine.run_invariant (memoryPool c)
      (P := fun s => (∃ pending, s.Reached c n pending) ∧ (s.leaves leaf).available < 0)
      (fun s op hs hop => ?_) ⟨hreached, hlost⟩ (Machine.along_of_forall_mem _ hops.2)).2
    obtain ⟨⟨pending, hs⟩, ha⟩ := hs
    exact ⟨hs.run_step hsmall hop, hs.available_neg hsmall hop ha⟩
  refine ⟨hneg, fun t size start ht => ?_⟩
  simp only [MemoryPool.step, ht, MemoryPool.loadAvailable, if_pos (Int.le_of_lt hneg)]

/-- Two threads find room for one block, and the block is given back. -/
theorem memoryPool_leaf_lost_two :
    let c : PoolConfig := ⟨64, 2, 0, 0, 0, by decide, by decide⟩
    let ops : List PoolOp := [.malloc 0 24, .malloc 1 24, .step 0, .step 1, .step 0, .step 1,
      .step 0]
    (((memoryPool c).run (.new c) ops).1.leaves 0).available = -16 ∧
      (((memoryPool c).run (.new c) (ops ++ [.free 0 ⟨0, 24, 24⟩, .malloc 0 8])).1.leaves
        0).available < 0 :=
  ⟨by decide,
    (memoryPool_leaf_lost _ 2 (by decide) _ _ (by simp [PoolOp.Tame, headerSize]) 0
      (by decide)).1⟩

end Plain.Sys
