import Plain.File.Binary

/-! # Looking things up in a table

A record is found by its line, by the key in a column, or through an index of keys. The
index is always made of the first column. A cell is found by one comparison of its place
with the size of the buffer, which does not keep the columns apart.
-/

namespace Plain.Tab

section Search

/-- What the comparison of cells depends on: the equality of floats, and the text at an
address if there is one. -/
structure Comparison where
  floatEqual : BitVec 32 → BitVec 32 → Bool
  text : FieldData → Option (List Byte)

def fieldEqual (cmp : Comparison) (type : FieldType) (a b : FieldData) : Option Bool :=
  match type with
  | .int => some (a.half == b.half)
  | .float => some (cmp.floatEqual a.half b.half)
  | .string => do
      let x ← cmp.text a
      let y ← cmp.text b
      return x == y

/-- The place of the first cell of the record that the index has for a key. -/
def searchIndexEqual (t : Tab) (index : BitVec 32) : Option ℤ := t.hashIndex.lookup index

def scanRows (equal : FieldData → Option Bool) (t : Tab) (column : ℤ) :
    List ℕ → Option (Option ℤ)
  | [] => some none
  | i :: rows => do
      let offset ← int32 (t.fieldNumber * i)
      let position ← int32 (offset + column)
      let data ← cellAt t.dataBuffer position
      let result ← equal data
      if result then return some offset else scanRows equal t column rows

/-- The place of the first cell of a record, or null. Nothing is returned when a place overflows
or is outside the table. -/
def searchFirstColumnEqual (cmp : Comparison) (t : Tab) (column : ℤ) (value : FieldData) :
    Option (Option ℤ) :=
  if column < 0 ∨ column > t.fieldNumber then some none
  else do
    let type ← t.type[column.toNat]?
    scanRows (fun data => fieldEqual cmp type data value) t column
      (List.range t.recordNumber.toNat)

/-- The place of a name among the columns, compared by `strcmp`. -/
def getFieldindex (t : Tab) (name : List Byte) : ℤ :=
  match t.fieldnames.findIdx? fun fieldname => fieldname.takeWhile (· ≠ 0) = name with
  | some i => i
  | none => -1

def getFielddata (t : Tab) (line : ℤ) (name : List Byte) : Option (Option FieldData) :=
  t.searchPosition line (t.getFieldindex name)

end Search

section Spec

def cell (t : Tab) (i c : ℕ) : Option FieldData := t.dataBuffer[i * t.type.length + c]?

def key (t : Tab) (i c : ℕ) : Option (BitVec 32) := (t.cell i c).map FieldData.half

def firstRow (t : Tab) (c : ℕ) (k : BitVec 32) : Option ℕ :=
  (List.range t.recordNumber.toNat).find? fun i => t.key i c = some k

def rowPlace (t : Tab) (i : ℕ) : ℤ := i * t.fieldNumber

def Inside (t : Tab) (line column : ℤ) : Prop :=
  0 ≤ line ∧ line < t.recordNumber ∧ 0 ≤ column ∧ column < t.fieldNumber

end Spec

/-- What a table has been used for. The flag tells whether the last thing that was to be opened
has been opened. -/
inductive Reached : Bool → Tab → Prop where
  | new : Reached false new
  | opened {loaded result : Bool} {t t' : Tab} (env : Env) (memory : List Byte) :
      Reached loaded t → openFromMemory env t memory = some (result, t') → Reached result t'
  | indexed {loaded : Bool} {t t' : Tab} (column : ℤ) :
      Reached loaded t → t.createIndex column = some t' → Reached loaded t'

/-- What opening a table establishes. The cells of an earlier table are kept behind its own. -/
structure Loaded (t : Tab) : Prop where
  fieldNumber_eq : t.fieldNumber = t.type.length
  length_le : t.type ≠ [] → t.recordNumber.toNat * t.type.length ≤ t.dataBuffer.length
  row_lt : ∀ i < t.recordNumber.toNat, i * t.type.length < 2 ^ 31

section Index

variable {t t' : Tab}

theorem indexRow_eq_some {index index' : List (BitVec 32 × ℤ)} {i : ℕ}
    (h : indexRow t index i = some index') :
    ∃ data, t.rowPlace i < 2 ^ 31 ∧ cellAt t.dataBuffer (t.rowPlace i) = some data ∧
      ∀ k, index'.lookup k =
        (index.lookup k).or (if data.half = k then some (t.rowPlace i) else none) := by
  simp only [indexRow, Option.bind_eq_bind, Option.bind_eq_some_iff, int32_eq_some_iff] at h
  obtain ⟨_, ⟨rfl, -, hlt⟩, data, hdata, hindex⟩ := h
  refine ⟨data, hlt, hdata, fun k => ?_⟩
  obtain rfl := Option.some.inj hindex
  by_cases hk : data.half = k
  · rw [if_pos hk, ← hk]
    split
    · next hsome =>
      obtain ⟨position, hposition⟩ := Option.isSome_iff_exists.mp hsome
      rw [hposition]
      rfl
    · rw [List.lookup_append]
      simp [rowPlace]
  · rw [if_neg hk, Option.or_none]
    split
    · rfl
    · have hbeq : (k == data.half) = false := beq_false_of_ne (Ne.symm hk)
      rw [List.lookup_append]
      simp [List.lookup_cons, hbeq]

theorem foldlM_indexRow {rows : List ℕ} {index index' : List (BitVec 32 × ℤ)}
    (h : rows.foldlM (indexRow t) index = some index') :
    (∀ k, index'.lookup k = (index.lookup k).or ((rows.find? fun i =>
      (cellAt t.dataBuffer (t.rowPlace i)).map FieldData.half = some k).map t.rowPlace)) ∧
      ∀ i ∈ rows, t.rowPlace i < 2 ^ 31 := by
  induction rows generalizing index with
  | nil =>
    obtain rfl := Option.some.inj h
    simp
  | cons i rows ih =>
    rw [List.foldlM_cons, Option.bind_eq_bind, Option.bind_eq_some_iff] at h
    obtain ⟨next, hnext, hrows⟩ := h
    obtain ⟨data, hlt, hdata, hlookup⟩ := indexRow_eq_some hnext
    obtain ⟨hrest, hlt'⟩ := ih hrows
    refine ⟨fun k => ?_, List.forall_mem_cons.mpr ⟨hlt, hlt'⟩⟩
    rw [hrest, hlookup, Option.or_assoc, List.find?_cons, hdata]
    by_cases hk : data.half = k
    · simp [hk]
    · simp [hk]

theorem createIndex_lookup (hf : t.fieldNumber = t.type.length) (hcolumn : t.indexColumn = -1)
    {c : ℕ} (hc : c ≤ t.type.length) (h : t.createIndex c = some t') :
    (∀ k, t'.searchIndexEqual k = (t.firstRow 0 k).map t.rowPlace) ∧
      ∀ i < t.recordNumber.toNat, i * t.type.length < 2 ^ 31 := by
  have hne : ¬ ((c : ℤ) < 0 ∨ (c : ℤ) > t.fieldNumber ∨ t.indexColumn = c) := by
    rw [hf, hcolumn]
    omega
  rw [createIndex_eq hne, Option.map_eq_some_iff] at h
  obtain ⟨hashIndex, hfold, rfl⟩ := h
  obtain ⟨hlookup, hlt⟩ := foldlM_indexRow hfold
  refine ⟨fun k => ?_, fun i hi => ?_⟩
  · have hcell (i : ℕ) : (cellAt t.dataBuffer (t.rowPlace i)).map FieldData.half = t.key i 0 := by
      rw [rowPlace, hf, ← Int.natCast_mul, cellAt_natCast]
      rfl
    simp only [searchIndexEqual, hlookup, hcell, List.lookup_nil, Option.none_or]
    rfl
  · have hplace := hlt i (List.mem_range.mpr hi)
    rw [rowPlace, hf] at hplace
    exact_mod_cast hplace

end Index

section Load

variable {env : Env} {t t' : Tab} {memory : List Byte}

theorem createIndex_loaded (h : t.createIndex 0 = some t') (hf : t.fieldNumber = t.type.length)
    (hcolumn : t.indexColumn = -1)
    (hlen : t.type ≠ [] → t.recordNumber.toNat * t.type.length ≤ t.dataBuffer.length) :
    t'.Loaded := by
  obtain ⟨-, hlt⟩ := createIndex_lookup hf hcolumn (Nat.zero_le _) h
  obtain ⟨_, rfl⟩ := createIndex_eq_some h
  exact ⟨hf, hlen, hlt⟩

theorem Loaded.createIndex {column : ℤ} (ht : t.Loaded) (h : t.createIndex column = some t') :
    t'.Loaded := by
  obtain ⟨_, rfl⟩ := createIndex_eq_some h
  exact ⟨ht.fieldNumber_eq, ht.length_le, ht.row_lt⟩

theorem loaded_of_install {types : List FieldType} {s : Reading}
    (hcolumn : t.indexColumn = -1) (hlen : s.recordNumber * types.length ≤ s.dataBuffer.length)
    (h : install env t types s = some t') : t'.Loaded := by
  unfold install at h
  simp only [Option.bind_eq_bind, Option.bind_eq_some_iff, int32_eq_some_iff] at h
  obtain ⟨_, ⟨rfl, _⟩, dataBuffer, hdata, hindex⟩ := h
  refine createIndex_loaded hindex rfl hcolumn fun _ => ?_
  exact hlen.trans (relocate_eq_some hdata).2.1.ge

theorem length_readWords {w n : ℕ} {memory : List Byte} {words : List (BitVec w)}
    (h : readWords w n memory = some words) : words.length = n := by
  induction n generalizing memory words with
  | zero =>
    obtain rfl := Option.some.inj h
    rfl
  | succ n ih =>
    rw [readWords] at h
    split at h
    · cases h
    · obtain ⟨rest, hrest, rfl⟩ := Option.map_eq_some_iff.mp h
      rw [List.length_cons, ih hrest]

theorem length_relocateBinary {types : List FieldType} {n : ℕ} {cells cells' : List FieldData}
    (h : relocateBinary env types n cells = some cells') : cells'.length = cells.length := by
  unfold relocateBinary at h
  dsimp only at h
  generalize (List.range types.length).flatMap _ = places at h
  induction places generalizing cells with
  | nil =>
    obtain rfl := Option.some.inj h
    rfl
  | cons place places ih =>
    rw [List.foldlM_cons, Option.bind_eq_bind, Option.bind_eq_some_iff] at h
    obtain ⟨next, hnext, hrest⟩ := h
    rw [ih hrest]
    split at hnext
    · obtain rfl := Option.some.inj hnext
      exact List.length_modify ..
    · cases hnext

theorem loaded_of_readSections {head : FileHead} (hcolumn : t.indexColumn = -1)
    (h : readSections env t head memory = some (true, t')) : t'.Loaded := by
  unfold readSections at h
  dsimp only at h
  simp only [Option.bind_eq_bind, Option.bind_eq_some_iff, Option.guard_eq_some'] at h
  obtain ⟨_, ⟨hblock, hfields⟩, codes, hcodes, h⟩ := h
  split at h
  · cases h
  · next types htypes =>
    simp only [Option.bind_eq_some_iff, int32_eq_some_iff, Option.guard_eq_some'] at h
    obtain ⟨_, ⟨rfl, -, -⟩, _, hcells, words, hwords, _, -, dataBuffer, hdata, _, hindex, he⟩ := h
    cases he
    have hlen : types.length = head.fieldNumber.toInt.toNat :=
      (length_of_mapM htypes).trans (length_readWords hcodes)
    refine createIndex_loaded hindex ?_ hcolumn fun hne => ?_
    · change head.fieldNumber.toInt = types.length
      omega
    · change head.recordNumber.toInt.toNat * types.length ≤ dataBuffer.length
      have htypes : 0 < types.length := List.length_pos_iff.mpr hne
      have hpos : 0 < head.fieldNumber.toInt := by omega
      have hrecords : 0 ≤ head.recordNumber.toInt := by
        by_contra hneg
        exact absurd hcells (Int.not_le.mpr (Int.mul_neg_of_pos_of_neg hpos (Int.not_le.mp hneg)))
      rw [length_relocateBinary hdata, length_readWords hwords, hlen,
        Int.toNat_mul hfields hrecords, Nat.mul_comm]

theorem loaded_of_openFromMemory (hcolumn : t.indexColumn = -1)
    (h : openFromMemory env t memory = some (true, t')) : t'.Loaded := by
  unfold openFromMemory at h
  split at h
  · unfold openFromMemoryBinary at h
    split at h
    · cases h
    · dsimp only at h
      split_ifs at h
      · cases h
      · cases h
      · exact loaded_of_readSections hcolumn h
  · obtain ⟨typeLine, rest, types, nameLine, rest', hget, htypes, hne, hget'⟩ :=
      lines_of_openFromMemoryText h
    obtain ⟨names, hopen⟩ := openFromMemoryText_eq env t hget htypes hne hget'
    rw [h, eq_comm, Option.bind_eq_some_iff] at hopen
    obtain ⟨s, hs, hopen⟩ := hopen
    obtain ⟨t', hinstall, he⟩ := Option.bind_eq_some_iff.mp hopen
    cases he
    refine loaded_of_install ?_ ?_ hinstall
    · exact hcolumn
    · have hlen := Reading.length_addRecords hs
      unfold Reading.new at hlen
      dsimp only at hlen
      omega

theorem indexColumn_install {types : List FieldType} {s : Reading}
    (h : install env t types s = some t') : t'.indexColumn = t.indexColumn := by
  unfold install at h
  simp only [Option.bind_eq_bind, Option.bind_eq_some_iff] at h
  obtain ⟨_, -, _, -, hindex⟩ := h
  obtain ⟨_, rfl⟩ := createIndex_eq_some hindex
  rfl

theorem indexColumn_openFromMemoryText {result : Bool}
    (h : openFromMemoryText env t memory = some (result, t')) :
    t'.indexColumn = t.indexColumn := by
  unfold openFromMemoryText at h
  split at h
  · cases h
    rfl
  · rw [Option.bind_eq_bind, Option.bind_eq_some_iff] at h
    obtain ⟨_, -, h⟩ := h
    split at h
    · cases h
      rfl
    · split at h
      · cases h
        rfl
      · split at h
        · obtain ⟨_, -, h⟩ := Option.bind_eq_some_iff.mp h
          cases h
          rfl
        · simp only [Option.bind_eq_bind, Option.bind_eq_some_iff] at h
          obtain ⟨_, -, _, -, _, hinstall, h⟩ := h
          cases h
          have hsame := indexColumn_install hinstall
          exact hsame

theorem indexColumn_readSections {head : FileHead} {result : Bool}
    (h : readSections env t head memory = some (result, t')) :
    t'.indexColumn = t.indexColumn := by
  unfold readSections at h
  dsimp only at h
  simp only [Option.bind_eq_bind, Option.bind_eq_some_iff] at h
  obtain ⟨_, -, _, -, h⟩ := h
  split at h
  · cases h
    rfl
  · simp only [Option.bind_eq_some_iff] at h
    obtain ⟨_, -, _, -, _, -, _, -, _, -, _, hindex, h⟩ := h
    cases h
    obtain ⟨_, rfl⟩ := createIndex_eq_some hindex
    rfl

/-- Nothing ever says that a column is indexed. -/
theorem indexColumn_openFromMemory {result : Bool}
    (h : openFromMemory env t memory = some (result, t')) : t'.indexColumn = t.indexColumn := by
  unfold openFromMemory at h
  split at h
  · unfold openFromMemoryBinary at h
    split at h
    · cases h
    · dsimp only at h
      split_ifs at h
      · cases h
        rfl
      · cases h
        rfl
      · exact indexColumn_readSections h
  · exact indexColumn_openFromMemoryText h

theorem Reached.indexColumn_eq {loaded : Bool} (h : Reached loaded t) : t.indexColumn = -1 := by
  induction h with
  | new => rfl
  | opened env memory _ hopen ih => exact (indexColumn_openFromMemory hopen).trans ih
  | indexed column _ hindex ih =>
    obtain ⟨_, rfl⟩ := createIndex_eq_some hindex
    exact ih

theorem Reached.loaded (h : Reached true t) : t.Loaded := by
  generalize htrue : true = loaded at h
  induction h with
  | new => cases htrue
  | opened env memory hreached hopen _ =>
    subst htrue
    exact loaded_of_openFromMemory hreached.indexColumn_eq hopen
  | indexed column _ hindex ih => exact (ih htrue).createIndex hindex

end Load

section Scan

variable {t : Tab} {c : ℕ}

theorem Loaded.exists_cell (ht : t.Loaded) {i : ℕ} (hi : i < t.recordNumber.toNat)
    (hc : c < t.type.length) : ∃ data, t.cell i c = some data := by
  have hne : t.type ≠ [] := List.length_pos_iff.mp (Nat.zero_lt_of_lt hc)
  have hlast := row_end_le t.type.length hi
  have hlen := ht.length_le hne
  exact ⟨_, List.getElem?_eq_getElem (by omega)⟩

/-- One record of the scan. Its first cell has a place, the cell of the column may not. -/
theorem scanRows_cons (ht : t.Loaded) (equal : FieldData → Option Bool) {i : ℕ}
    (hi : i < t.recordNumber.toNat) {data : FieldData} (hdata : t.cell i c = some data)
    (rows : List ℕ) :
    scanRows equal t c (i :: rows) =
      if i * t.type.length + c < 2 ^ 31 then
        (equal data).bind fun result =>
          if result then some (some (t.rowPlace i)) else scanRows equal t c rows
      else none := by
  have hplace : t.rowPlace i = ((i * t.type.length : ℕ) : ℤ) := by
    rw [rowPlace, ht.fieldNumber_eq, Int.natCast_mul]
  have hoffset : int32 (t.fieldNumber * i) = some (t.rowPlace i) := by
    have hlt := ht.row_lt i hi
    rw [Int.mul_comm, ← rowPlace]
    exact int32_eq_some (by omega) (by omega)
  have hsum : t.rowPlace i + c = ((i * t.type.length + c : ℕ) : ℤ) := by
    rw [hplace, Int.natCast_add]
  rw [scanRows, hoffset, Option.bind_eq_bind, Option.bind_some, hsum]
  split
  · rw [int32_eq_some (by omega) (by omega), Option.bind_eq_bind, Option.bind_some,
      cellAt_natCast, show t.dataBuffer[i * t.type.length + c]? = some data from hdata]
    rfl
  · have hnone : int32 ((i * t.type.length + c : ℕ) : ℤ) = none := if_neg (by omega)
    rw [hnone]
    rfl

/-- The places of the records up to the first one with the key do not overflow. -/
def Scans (t : Tab) (c : ℕ) (k : BitVec 32) : List ℕ → Prop
  | [] => True
  | i :: rows => i * t.type.length + c < 2 ^ 31 ∧ (t.key i c ≠ some k → t.Scans c k rows)

/-- The scan of a column of numbers ends if no place overflows, and then it has found the first
record with the key. -/
theorem scanRows_eq_some_iff (cmp : Comparison) (ht : t.Loaded) (hc : c < t.type.length)
    (value : FieldData) {rows : List ℕ} (hrows : ∀ i ∈ rows, i < t.recordNumber.toNat)
    (r : Option ℤ) :
    scanRows (fun data => fieldEqual cmp .int data value) t c rows = some r ↔
      t.Scans c value.half rows ∧
        r = (rows.find? fun i => t.key i c = some value.half).map t.rowPlace := by
  induction rows with
  | nil => simp [scanRows, Scans, eq_comm]
  | cons i rows ih =>
    rw [List.forall_mem_cons] at hrows
    obtain ⟨data, hdata⟩ := ht.exists_cell hrows.1 hc
    have hkey : t.key i c = some data.half := by rw [key, hdata, Option.map_some]
    rw [scanRows_cons ht _ hrows.1 hdata, fieldEqual, Option.bind_some, Scans, hkey]
    by_cases hfit : i * t.type.length + c < 2 ^ 31
    · rw [if_pos hfit, and_iff_right hfit, List.find?_cons, hkey]
      by_cases hk : data.half = value.half
      · simp [hk, eq_comm]
      · have hbeq : (data.half == value.half) = false := beq_false_of_ne hk
        rw [hbeq, if_neg Bool.false_ne_true, ih hrows.2]
        simp [hk]
    · rw [if_neg hfit]
      simp only [hfit, false_and, reduceCtorEq]

theorem scans_range'_iff (k : BitVec 32) (s n : ℕ) :
    t.Scans c k (List.range' s n) ↔ ∀ i, s ≤ i → i < s + n →
      (∀ j, s ≤ j → j < i → t.key j c ≠ some k) → i * t.type.length + c < 2 ^ 31 := by
  induction n generalizing s with
  | zero =>
    refine iff_of_true trivial fun i h₁ h₂ => ?_
    omega
  | succ n ih =>
    rw [List.range'_succ, Scans, ih]
    constructor
    · rintro ⟨hfit, hrest⟩ i hle hlt hnone
      rcases Nat.eq_or_lt_of_le hle with rfl | hs
      · exact hfit
      · exact hrest (hnone s le_rfl hs) i hs (by omega) fun j hj => hnone j (by omega)
    · intro h
      refine ⟨h s le_rfl (by omega) fun j h₁ h₂ => by omega, fun hs i hle hlt hnone => ?_⟩
      refine h i (by omega) (by omega) fun j hj hji => ?_
      rcases Nat.eq_or_lt_of_le hj with rfl | hlt'
      · exact hs
      · exact hnone j hlt' hji

theorem firstRow_eq_none_iff (k : BitVec 32) :
    t.firstRow c k = none ↔ ∀ i < t.recordNumber.toNat, t.key i c ≠ some k := by
  simp [firstRow]

theorem searchFirstColumnEqual_eq_some_iff (cmp : Comparison) (ht : t.Loaded)
    (hc : t.type[c]? = some .int) (value : FieldData) (r : Option ℤ) :
    t.searchFirstColumnEqual cmp c value = some r ↔
      (∀ i < t.recordNumber.toNat, (∀ j < i, t.key j c ≠ some value.half) →
        i * t.type.length + c < 2 ^ 31) ∧
      r = (t.firstRow c value.half).map t.rowPlace := by
  have hlt : c < t.type.length := (List.getElem?_eq_some_iff.mp hc).1
  have hrange : ¬ ((c : ℤ) < 0 ∨ (c : ℤ) > t.fieldNumber) := by
    rw [ht.fieldNumber_eq]
    omega
  rw [searchFirstColumnEqual, if_neg hrange, Int.toNat_natCast, hc, Option.bind_eq_bind,
    Option.bind_some, scanRows_eq_some_iff cmp ht hlt value fun i => List.mem_range.mp,
    List.range_eq_range', scans_range'_iff, ← List.range_eq_range']
  simp only [Nat.zero_le, true_implies, Nat.zero_add]
  rfl

end Scan

section Agreement

variable {t : Tab}

theorem Loaded.exists_createIndex (ht : t.Loaded) (hne : t.type ≠ []) (column : ℤ) :
    ∃ t', t.createIndex column = some t' := by
  refine Tab.exists_createIndex ht.fieldNumber_eq (fun i hi => ⟨ht.row_lt i hi, ?_⟩) column
  obtain ⟨data, hdata⟩ := ht.exists_cell hi (List.length_pos_iff.mpr hne)
  exact (List.getElem?_eq_some_iff.mp hdata).1

theorem Loaded.rowPlace_injective (ht : t.Loaded) (hne : t.type ≠ []) :
    Function.Injective t.rowPlace := by
  intro i j h
  have hpos : 0 < t.type.length := List.length_pos_iff.mpr hne
  rw [rowPlace, rowPlace, ht.fieldNumber_eq] at h
  exact_mod_cast Int.eq_of_mul_eq_mul_right (by omega) h

/-- The index of a column of numbers agrees with the scan of that column for exactly those keys
whose first record is the same in the first column, and which are found before a place
overflows. -/
theorem index_agrees_iff (cmp : Comparison) (h : Reached true t) {c : ℕ}
    (hc : t.type[c]? = some .int) :
    ∃ t', t.createIndex c = some t' ∧ ∀ value : FieldData,
      (∃ r, t'.searchFirstColumnEqual cmp c value = some r ∧
        t'.searchIndexEqual value.half = r ∧
        (r = none ↔ ∀ i < t.recordNumber.toNat, t.key i c ≠ some value.half)) ↔
      t.firstRow 0 value.half = t.firstRow c value.half ∧
        ∀ i < t.recordNumber.toNat, (∀ j < i, t.key j c ≠ some value.half) →
          i * t.type.length + c < 2 ^ 31 := by
  have ht := h.loaded
  have hlt : c < t.type.length := (List.getElem?_eq_some_iff.mp hc).1
  have hne : t.type ≠ [] := List.length_pos_iff.mp (Nat.zero_lt_of_lt hlt)
  obtain ⟨t', hindex⟩ := ht.exists_createIndex hne c
  have hlookup := (createIndex_lookup ht.fieldNumber_eq h.indexColumn_eq hlt.le hindex).1
  refine ⟨t', hindex, fun value => ?_⟩
  -- the scan does not look at the index
  obtain ⟨_, rfl⟩ := createIndex_eq_some hindex
  have hscan := searchFirstColumnEqual_eq_some_iff cmp (ht.createIndex hindex) hc value
  have hmap := Option.map_injective (ht.rowPlace_injective hne)
  constructor
  · rintro ⟨r, hr, hagree, -⟩
    obtain ⟨hplaces, rfl⟩ := (hscan r).mp hr
    rw [hlookup] at hagree
    exact ⟨hmap hagree, hplaces⟩
  · rintro ⟨hfirst, hplaces⟩
    refine ⟨_, (hscan _).mpr ⟨hplaces, rfl⟩, ?_, ?_⟩
    · rw [hlookup, hfirst]
      rfl
    · rw [Option.map_eq_none_iff, firstRow_eq_none_iff]
      rfl

/-- A table of two columns in which the number two stands twice in each: both find the first of
its records. -/
theorem index_agrees_iff_repeated :
    let env : Env := ⟨fun text => BitVec.ofNat 32 ((text.getD 0 0x30).toNat - 0x30), fun _ => 0,
      4096, fun _ => 0⟩
    let cmp : Comparison := ⟨fun _ _ => false, fun _ => none⟩
    let t : Tab := ⟨[.int, .int], 3, 2, [1, 5, 2, 2, 2, 2], [[0x61], [0x62]], 4096, [0], 1,
      [(1, 0), (2, 2)], -1⟩
    openFromMemory env new [0x49, 0x4E, 0x54, 0x09, 0x49, 0x4E, 0x54, 0x0A, 0x61, 0x09, 0x62, 0x0A,
        0x31, 0x09, 0x35, 0x0A, 0x32, 0x09, 0x32, 0x0A, 0x32, 0x09, 0x32] = some (true, t) ∧
      ∃ t', t.createIndex (1 : ℕ) = some t' ∧
        ∃ r, t'.searchFirstColumnEqual cmp (1 : ℕ) 2 = some r ∧ t'.searchIndexEqual 2 = r ∧
          (r = none ↔ ∀ i < 3, t.key i 1 ≠ some 2) := by
  intro env cmp t
  have h : openFromMemory env new [0x49, 0x4E, 0x54, 0x09, 0x49, 0x4E, 0x54, 0x0A, 0x61, 0x09, 0x62,
      0x0A, 0x31, 0x09, 0x35, 0x0A, 0x32, 0x09, 0x32, 0x0A, 0x32, 0x09, 0x32] = some (true, t) := by
    decide +kernel
  obtain ⟨t', hindex, hagree⟩ := index_agrees_iff cmp (.opened env _ .new h) (c := 1) rfl
  exact ⟨h, t', hindex, (hagree 2).mpr (by decide +kernel)⟩

/-- The index of the second column has the keys of the first one. -/
theorem index_of_second_column :
    let env : Env := ⟨fun text => BitVec.ofNat 32 ((text.getD 0 0x30).toNat - 0x30), fun _ => 0,
      4096, fun _ => 0⟩
    let cmp : Comparison := ⟨fun _ _ => false, fun _ => none⟩
    let t : Tab := ⟨[.int, .int], 2, 2, [1, 5, 2, 6], [[0x61], [0x62]], 4096, [0], 1,
      [(1, 0), (2, 2)], -1⟩
    openFromMemory env new [0x49, 0x4E, 0x54, 0x09, 0x49, 0x4E, 0x54, 0x0A, 0x61, 0x09, 0x62, 0x0A,
        0x31, 0x09, 0x35, 0x0A, 0x32, 0x09, 0x36] = some (true, t) ∧
      t.createIndex 1 = some t ∧
      t.searchFirstColumnEqual cmp 1 5 = some (some 0) ∧ t.searchIndexEqual 5 = none ∧
      t.searchFirstColumnEqual cmp 1 1 = some none ∧ t.searchIndexEqual 1 = some 0 := by
  decide +kernel

end Agreement

section Confinement

variable {t : Tab}

def position (t : Tab) (line column : ℤ) : ℤ := line * t.fieldNumber + column

def Computes (t : Tab) (line column : ℤ) : Prop :=
  (-2 ^ 31 ≤ line * t.fieldNumber ∧ line * t.fieldNumber < 2 ^ 31) ∧
    -2 ^ 31 ≤ t.position line column ∧ t.position line column < 2 ^ 31

def Admits (t : Tab) (line column : ℤ) : Prop :=
  0 ≤ line ∧ t.position line column ≤ (BitVec.ofNat 32 t.dataBuffer.length).toInt

instance (t : Tab) (line column : ℤ) : Decidable (t.Inside line column) :=
  inferInstanceAs (Decidable (_ ∧ _))

instance (t : Tab) (line column : ℤ) : Decidable (t.Computes line column) :=
  inferInstanceAs (Decidable (_ ∧ _))

instance (t : Tab) (line column : ℤ) : Decidable (t.Admits line column) :=
  inferInstanceAs (Decidable (_ ∧ _))

/-- A line and a column of the table give their cell, and anything else gives null. -/
def Confined (t : Tab) (line column : ℤ) : Prop :=
  (t.Inside line column → ∃ data, t.cell line.toNat column.toNat = some data ∧
    t.searchPosition line column = some (some data)) ∧
  (¬ t.Inside line column → t.searchPosition line column = some none)

theorem searchPosition_eq (t : Tab) (line column : ℤ) :
    t.searchPosition line column =
      if t.Computes line column then
        if t.Admits line column then (cellAt t.dataBuffer (t.position line column)).map some
        else some none
      else none := by
  unfold searchPosition
  by_cases hcomputes : t.Computes line column
  · rw [if_pos hcomputes, int32_eq_some hcomputes.1.1 hcomputes.1.2, Option.bind_eq_bind,
      Option.bind_some, ← position, int32_eq_some hcomputes.2.1 hcomputes.2.2,
      Option.bind_eq_bind, Option.bind_some]
    by_cases hadmits : t.Admits line column
    · have hcheck : ¬ (line < 0 ∨
          t.position line column > (BitVec.ofNat 32 t.dataBuffer.length).toInt) :=
        not_or.mpr ⟨not_lt.mpr hadmits.1, not_lt.mpr hadmits.2⟩
      rw [if_neg hcheck, if_pos hadmits, Option.map_eq_bind]
      rfl
    · have hcheck : line < 0 ∨
          t.position line column > (BitVec.ofNat 32 t.dataBuffer.length).toInt :=
        (Decidable.not_and_iff_or_not.mp hadmits).imp not_le.mp not_le.mp
      rw [if_pos hcheck, if_neg hadmits]
      rfl
  · rw [if_neg hcomputes]
    refine Option.eq_none_iff_forall_ne_some.mpr fun r hr => hcomputes ?_
    simp only [Option.bind_eq_bind, Option.bind_eq_some_iff, int32_eq_some_iff] at hr
    obtain ⟨_, ⟨rfl, hoffset⟩, _, ⟨rfl, hposition⟩, -⟩ := hr
    exact ⟨hoffset, hposition⟩

theorem searchPosition_eq_null_iff {line column : ℤ} :
    t.searchPosition line column = some none ↔
      t.Computes line column ∧ ¬ t.Admits line column := by
  rw [searchPosition_eq]
  split_ifs with hcomputes hadmits
  · simp [hadmits]
  · exact iff_of_true rfl ⟨hcomputes, hadmits⟩
  · simp [hcomputes]

theorem searchPosition_eq_cell_iff {line column : ℤ} {data : FieldData} :
    t.searchPosition line column = some (some data) ↔
      (t.Computes line column ∧ t.Admits line column) ∧
        cellAt t.dataBuffer (t.position line column) = some data := by
  rw [searchPosition_eq]
  split_ifs with hcomputes hadmits
  · simp [hcomputes, hadmits]
  · simp [hadmits]
  · simp [hcomputes]

theorem Loaded.exists_cellAt (ht : t.Loaded) {line column : ℤ} (h : t.Inside line column) :
    ∃ data, t.cell line.toNat column.toNat = some data ∧
      cellAt t.dataBuffer (t.position line column) = some data := by
  obtain ⟨hline, hlt, hcolumn, hlt'⟩ := h
  have hf := ht.fieldNumber_eq
  obtain ⟨data, hdata⟩ := ht.exists_cell (i := line.toNat) (c := column.toNat) (by omega) (by omega)
  refine ⟨data, hdata, ?_⟩
  have hposition : t.position line column =
      ((line.toNat * t.type.length + column.toNat : ℕ) : ℤ) := by
    rw [position, hf, Int.natCast_add, Int.natCast_mul, Int.toNat_of_nonneg hline,
      Int.toNat_of_nonneg hcolumn]
  rw [hposition, cellAt_natCast]
  exact hdata

theorem getFieldindex_eq_neg_one {name : List Byte}
    (h : ∀ fieldname ∈ t.fieldnames, fieldname.takeWhile (· ≠ 0) ≠ name) :
    t.getFieldindex name = -1 := by
  have hnone : t.fieldnames.findIdx? (fun fieldname => fieldname.takeWhile (· ≠ 0) = name) =
      none := by
    rw [List.findIdx?_eq_none_iff]
    exact fun fieldname hmem => decide_eq_false (h fieldname hmem)
  rw [getFieldindex, hnone]

/-- The cells of a table are kept apart for exactly those lines and columns for which the check
of the place is the check of the line and the column. -/
theorem cell_confined_iff (h : Reached true t) (line column : ℤ) :
    (t.Confined line column ↔ t.Computes line column ∧
      (t.Admits line column ↔ t.Inside line column)) ∧
    ∀ name, (∀ fieldname ∈ t.fieldnames, fieldname.takeWhile (· ≠ 0) ≠ name) →
      (t.getFielddata line name = some none ↔ t.Computes line (-1) ∧ ¬ t.Admits line (-1)) := by
  constructor
  · unfold Confined
    by_cases hinside : t.Inside line column
    · obtain ⟨data, hcell, hplace⟩ := h.loaded.exists_cellAt hinside
      simp only [hinside, not_true_eq_false, true_implies, false_implies, and_true, iff_true]
      constructor
      · rintro ⟨_, -, hfound⟩
        exact (searchPosition_eq_cell_iff.mp hfound).1
      · intro hadmits
        exact ⟨data, hcell, searchPosition_eq_cell_iff.mpr ⟨hadmits, hplace⟩⟩
    · simp only [hinside, not_false_eq_true, true_implies, false_implies, true_and, iff_false]
      exact searchPosition_eq_null_iff
  · intro name hname
    rw [getFielddata, getFieldindex_eq_neg_one hname]
    exact searchPosition_eq_null_iff

/-- In a table of three records and two columns, the last cell is found, the line behind it is
not, and neither is an unknown column of a negative line. -/
theorem cell_confined_iff_columns :
    let env : Env := ⟨fun text => BitVec.ofNat 32 ((text.getD 0 0x30).toNat - 0x30), fun _ => 0,
      4096, fun _ => 0⟩
    let t : Tab := ⟨[.int, .int], 3, 2, [1, 5, 2, 2, 2, 2], [[0x61], [0x62]], 4096, [0], 1,
      [(1, 0), (2, 2)], -1⟩
    openFromMemory env new [0x49, 0x4E, 0x54, 0x09, 0x49, 0x4E, 0x54, 0x0A, 0x61, 0x09, 0x62, 0x0A,
        0x31, 0x09, 0x35, 0x0A, 0x32, 0x09, 0x32, 0x0A, 0x32, 0x09, 0x32] = some (true, t) ∧
      t.Confined 2 1 ∧ t.Confined 3 1 ∧ t.getFielddata (-1) [0x78] = some none := by
  intro env t
  have h : openFromMemory env new [0x49, 0x4E, 0x54, 0x09, 0x49, 0x4E, 0x54, 0x0A, 0x61, 0x09, 0x62,
      0x0A, 0x31, 0x09, 0x35, 0x0A, 0x32, 0x09, 0x32, 0x0A, 0x32, 0x09, 0x32] = some (true, t) := by
    decide +kernel
  have hreached := Reached.opened env _ .new h
  exact ⟨h, (cell_confined_iff hreached 2 1).1.mpr (by decide +kernel),
    (cell_confined_iff hreached 3 1).1.mpr (by decide +kernel),
    ((cell_confined_iff hreached (-1) 0).2 [0x78] (by decide +kernel)).mpr (by decide +kernel)⟩

/-- In a table of two records and one column, the second line of an unknown column is the first
record, the line behind the last one is outside the buffer, and so is the column before the
first cell. -/
theorem unknown_column_of_second_line :
    let env : Env := ⟨fun text => BitVec.ofNat 32 ((text.getD 0 0x30).toNat - 0x30), fun _ => 0,
      4096, fun _ => 0⟩
    let t : Tab := ⟨[.int], 2, 1, [7, 8], [[0x6E]], 4096, [0], 1, [(7, 0), (8, 1)], -1⟩
    openFromMemory env new [0x49, 0x4E, 0x54, 0x0A, 0x6E, 0x0A, 0x37, 0x0A, 0x38] =
        some (true, t) ∧
      t.getFielddata 1 [0x78] = some (some 7) ∧ ¬ t.Inside 2 0 ∧
      t.searchPosition 2 0 = none ∧ t.searchPosition 0 (-1) = none := by
  decide +kernel

end Confinement

end Plain.Tab
