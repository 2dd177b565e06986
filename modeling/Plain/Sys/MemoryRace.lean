import Plain.Sys.MemoryBlocks

/-! # A race in the memory pool

A thread that resets a leaf stores the bytes that are available first and takes off the bytes that
were given back afterwards. In between another thread can get two blocks and give one of them
back, which then looks like the last one, so that the leaf is reset once more under the other.
-/

namespace Plain.Sys

namespace MemoryPool

variable {c : PoolConfig} {s : MemoryPool} {t size offset : ℕ}

def allocated (c : PoolConfig) (s : MemoryPool) (b : PoolBlock) : MemoryPool :=
  { s.setLeaf 0 { s.leaves 0 with available := b.offset } with
    headers := putHeader s.headers b.leaf b.offset (b.header c)
    owned := b :: s.owned }

theorem malloc_eq (ht : s.threads t = .idle) (hcur : s.curLeaf = 0) :
    s.malloc t size = s.setThread t (.load size 0 0) := by
  simp only [malloc, ht, hcur]

theorem step_load (hsize : size + headerSize < 2 ^ 31)
    (hroom : (size + headerSize : ℕ) ≤ (s.leaves 0).available) :
    ((s.setThread t (.load size 0 0)).step c t).1 = s.setThread t (.sub size 0 0) := by
  have hpos : ¬ (s.leaves 0).available ≤ 0 := by
    simp only [headerSize] at hroom
    omega
  simp only [step, threads_setThread_self, loadAvailable, leaves_setThread, realSize_eq hsize,
    if_neg hpos, if_pos hroom, setThread_setThread]

theorem step_sub (hsize : offset + (size + headerSize) < 2 ^ 31)
    (hroom : (s.leaves 0).available = (offset + (size + headerSize) : ℕ))
    (haverage : c.average ≤ offset) :
    ((s.setThread t (.sub size 0 0)).step c t).1 =
      (s.setLeaf 0 { s.leaves 0 with available := offset }).setThread t
        (.header ⟨0, offset, size⟩) := by
  have hafter : wrap32 ((s.leaves 0).available - realSize size) = offset := by
    rw [realSize_eq (by omega), hroom, wrap32_eq (by omega) (by omega)]
    omega
  have hlarge : ¬ (offset : ℤ) < c.average := by omega
  simp only [step, threads_setThread_self, fetchSub, leaves_setThread, hafter,
    if_pos (Int.natCast_nonneg offset), if_neg hlarge, Int.toNat_natCast, setLeaf_setThread,
    setThread_setThread]

theorem step_header {b : PoolBlock} : ((s.setThread t (.header b)).step c t).1 =
    { s with
      headers := putHeader s.headers b.leaf b.offset (b.header c)
      owned := b :: s.owned }.setThread t .idle := by
  simp only [step, threads_setThread_self, writeHeader, setThread_setThread]
  rfl

end MemoryPool

open MemoryPool

def mallocOps (t size : ℕ) : List PoolOp := [.malloc t size, .step t, .step t, .step t]

def resetOps (t : ℕ) (b : PoolBlock) : List PoolOp := [.begin t b, .step t, .step t, .step t]

section Run

variable {c : PoolConfig} {s : MemoryPool} {t size offset : ℕ}

theorem run_mallocOps (offset : ℕ) (ht : s.threads t = .idle) (hcur : s.curLeaf = 0)
    (hsize : offset + (size + headerSize) < 2 ^ 31)
    (hroom : (s.leaves 0).available = (offset + (size + headerSize) : ℕ))
    (haverage : c.average ≤ offset) :
    ((memoryPool c).run s (mallocOps t size)).1 = s.allocated c ⟨0, offset, size⟩ := by
  simp only [mallocOps, Machine.run_cons, Machine.run_nil]
  simp only [memoryPool]
  rw [malloc_eq ht hcur, step_load (by omega) (by omega), step_sub hsize hroom haverage,
    step_header, setThread_eq_self (by exact ht)]
  rfl

theorem run_resetOps {b : PoolBlock} (h : s.Releasable c b) (ht : s.threads t = .idle)
    (hlast : (s.leaves b.leaf).deallocated + ((b.size : ℤ) + headerSize) =
      c.leafSize - (s.leaves b.leaf).available) :
    ((memoryPool c).run s (resetOps t b)).1 =
      ({ s with owned := s.owned.erase b }.setLeaf b.leaf
        ⟨c.leafSize, c.leafSize - (s.leaves b.leaf).available⟩).setThread t
        (.deduct b (c.leafSize - (s.leaves b.leaf).available)) := by
  have hheader : { s with owned := s.owned.erase b }.headerAt b = some (b.header c) := h.header
  have hint : (b.header c).size = b.size :=
    (toInt_ofNat_eq_iff _).mpr (h.size.trans c.leafSize_lt)
  have hleafId : (b.header c).leafId = b.leaf := rfl
  simp only [resetOps, Machine.run_cons, Machine.run_nil]
  simp only [memoryPool]
  rw [h.begin_eq ht, step_add hheader, hleafId, hint]
  simp only [hlast, h.taken]
  rw [step_read_eq (by simpa using hheader) (by simp [hleafId, h.taken]), step_exchange
    (by simpa using hheader) rfl]
  simp only [hleafId, leaves_setLeaf_self, setLeaf_setLeaf]

end Run

/-- A thread gives back its block and is interrupted behind the reset; another allocates two
blocks, gives back the second and allocates one more. -/
def raceOps (first second : PoolBlock) : List PoolOp :=
  mallocOps 0 first.size ++ resetOps 0 first ++ mallocOps 1 first.size ++
    mallocOps 1 second.size ++ [.free 1 second] ++ mallocOps 1 first.size

/-- What a thread that is not inside of the pool sees of it. -/
structure Seen (s : MemoryPool) (t : ℕ) (available deallocated : ℤ) (owned : List PoolBlock) :
    Prop where
  idle : s.threads t = .idle
  curLeaf : s.curLeaf = 0
  leaf : s.leaves 0 = ⟨available, deallocated⟩
  owned : s.owned = owned

namespace Seen

variable {c : PoolConfig} {s : MemoryPool} {t u size offset : ℕ} {available deallocated : ℤ}
  {owned : List PoolBlock} {b : PoolBlock}

theorem malloc (h : Seen s t (offset + (size + headerSize) : ℕ) deallocated owned)
    (hsize : offset + (size + headerSize) < 2 ^ 31) (haverage : c.average ≤ offset) :
    let s' := ((memoryPool c).run s (mallocOps t size)).1
    Seen s' t offset deallocated (⟨0, offset, size⟩ :: owned) ∧ s'.threads = s.threads ∧
      s'.headerAt ⟨0, offset, size⟩ = some (PoolBlock.header c ⟨0, offset, size⟩) := by
  rw [run_mallocOps offset h.idle h.curLeaf hsize (by rw [h.leaf]) haverage]
  refine ⟨⟨h.idle, h.curLeaf, ?_, congrArg _ h.owned⟩, rfl, putHeader_self⟩
  simp [allocated, setLeaf, h.leaf]

theorem releasable (h : Seen s t available deallocated (b :: owned))
    (hheader : s.headerAt b = some (b.header c)) (hleaf : b.leaf = 0) (hmissing : c.missing = 0)
    (hsize : b.size < c.leafSize) (havailable : 0 ≤ available ∧ available ≤ c.leafSize)
    (hlast : deallocated + ((b.size : ℤ) + headerSize) = c.leafSize - available) :
    s.Releasable c b := by
  have hlt := c.leafSize_lt
  have hwrap : wrap32 (c.leafSize - available) = c.leafSize - available :=
    wrap32_eq (by omega) (by omega)
  refine ⟨by simp [h.owned], hheader, ⟨by omega, hleaf ▸ c.leafCount_pos⟩, hsize, ?_, ?_⟩
  · simp only [hleaf, h.leaf, hlast, hwrap]
  · simp only [hleaf, h.leaf, hwrap]

theorem free (h : Seen s t available deallocated (b :: owned)) (hb : s.Releasable c b)
    (hleaf : b.leaf = 0)
    (hlast : deallocated + ((b.size : ℤ) + headerSize) = c.leafSize - available) :
    Seen ((memoryPool c).run s [.free t b]).1 t c.leafSize 0 owned := by
  have hfree : ((memoryPool c).run s [.free t b]).1 = s.released c b :=
    congrArg Prod.fst (hb.free_eq h.idle)
  rw [hfree]
  refine ⟨h.idle, h.curLeaf, ?_, ?_⟩
  · simp only [released, hleaf, Function.update_self, h.leaf, Nat.cast_add, if_pos hlast]
  · simp [released, h.owned]

theorem reset (h : Seen s t available deallocated [b]) (hb : s.Releasable c b) (hleaf : b.leaf = 0)
    (hlast : deallocated + ((b.size : ℤ) + headerSize) = c.leafSize - available)
    (hu : s.threads u = .idle) (hne : u ≠ t) :
    Seen ((memoryPool c).run s (resetOps t b)).1 u c.leafSize (c.leafSize - available) [] := by
  rw [run_resetOps hb h.idle (by simpa [hleaf, h.leaf] using hlast)]
  refine ⟨(threads_setThread_of_ne hne).trans hu, h.curLeaf, ?_, ?_⟩
  · simp [hleaf, h.leaf]
  · simp [setThread, setLeaf, h.owned]

end Seen

/-- Where the first leaf has room for two blocks and for the average behind them, two threads that
give back only what they own, with one call of `free` interrupted behind the reset of the leaf, end
up with one and the same block in use twice. -/
theorem memoryPool_free_races (c : PoolConfig) (size : ℕ) (hmissing : c.missing = 0)
    (hroom : c.average + 2 * (size + headerSize) ≤ c.leafSize) :
    let low := c.leafSize - 2 * (size + headerSize)
    let first : PoolBlock := ⟨0, low + (size + headerSize), size⟩
    let second : PoolBlock := ⟨0, low, size⟩
    ((memoryPool c).run (.new c) (raceOps first second)).1.owned = [first, first] := by
  obtain ⟨n, hn⟩ := Nat.exists_eq_add_of_le' (Nat.le_of_add_left_le hroom)
  have hlow : c.leafSize - 2 * (size + headerSize) = n := by omega
  have haverage : c.average ≤ n := by omega
  have hlt := c.leafSize_lt
  have hsize : size < c.leafSize := by
    simp only [headerSize] at hn
    omega
  rw [hlow]
  simp only [raceOps, Machine.run_append]
  have hnew : Seen (new c) 0 (n + (size + headerSize) + (size + headerSize) : ℕ) 0 [] :=
    ⟨rfl, rfl, by simp [new, hmissing, hn, Nat.two_mul, Nat.add_assoc], rfl⟩
  have hfull : (c.leafSize : ℤ) = (n + (size + headerSize) + (size + headerSize) : ℕ) := by omega
  obtain ⟨h₁, hthreads, hheader₁⟩ := hnew.malloc (c := c) (by omega) (by omega)
  have hlast₁ : (0 : ℤ) + ((size : ℤ) + headerSize) =
      c.leafSize - ((n + (size + headerSize) : ℕ) : ℤ) := by omega
  have hb₁ := h₁.releasable hheader₁ rfl hmissing hsize (by omega) hlast₁
  have h₂ := h₁.reset hb₁ rfl hlast₁ (u := 1) (by rw [hthreads]; rfl) (by omega)
  rw [hfull] at h₂
  obtain ⟨h₃, -, -⟩ := h₂.malloc (c := c) (by omega) (by omega)
  obtain ⟨h₄, -, hheader₄⟩ := h₃.malloc (c := c) (by omega) haverage
  have hlast₄ : ((n + (size + headerSize) + (size + headerSize) : ℕ) : ℤ) -
      ((n + (size + headerSize) : ℕ) : ℤ) + ((size : ℤ) + headerSize) =
      c.leafSize - (n : ℤ) := by omega
  have hb₄ := h₄.releasable hheader₄ rfl hmissing hsize (by omega) hlast₄
  have h₅ := h₄.free hb₄ rfl hlast₄
  rw [hfull] at h₅
  obtain ⟨h₆, -, -⟩ := h₅.malloc (c := c) (by omega) (by omega)
  exact h₆.owned

/-- The pool as it is configured by default. -/
theorem memoryPool_free_races_default :
    let c : PoolConfig := ⟨65535, 16, 655, 0, 0, by decide, by decide⟩
    c.average + 2 * (100 + headerSize) ≤ c.leafSize ∧
      ((memoryPool c).run (.new c) (raceOps ⟨0, 65419, 100⟩ ⟨0, 65303, 100⟩)).1.owned =
        [⟨0, 65419, 100⟩, ⟨0, 65419, 100⟩] :=
  ⟨by decide, memoryPool_free_races _ 100 rfl (by decide)⟩

end Plain.Sys
