import Mathlib.Data.List.Nodup
import Plain.File.Records

/-! # Opening a text

A text is opened faithfully when every cell can be found and holds the number or the text
that stands there. This is so unless the relocation of texts goes on for ever, or the
positions of cells overflow.
-/

namespace Plain.Tab

section Relocate

variable {types : List FieldType} {recordNumber : ℕ}

/-- The places of the cells that hold texts, in the order the two loops visit them. -/
def stringPlaces (types : List FieldType) (recordNumber : ℕ) : List ℕ :=
  (List.range types.length).flatMap fun m =>
    if types[m]? = some .string then
      (List.range recordNumber).map fun n => n * types.length + m
    else []

theorem mem_stringPlaces {i j : ℕ} (hj : j < types.length) :
    i * types.length + j ∈ stringPlaces types recordNumber ↔
      i < recordNumber ∧ types[j]? = some .string := by
  unfold stringPlaces
  rw [List.mem_flatMap]
  constructor
  · rintro ⟨m, hm, hmem⟩
    rw [List.mem_range] at hm
    split at hmem
    · rename_i htype
      obtain ⟨n, hn, he⟩ := List.mem_map.mp hmem
      obtain ⟨rfl, rfl⟩ := row_column_unique hm hj he
      exact ⟨List.mem_range.mp hn, htype⟩
    · cases hmem
  · rintro ⟨hi, htype⟩
    refine ⟨j, List.mem_range.mpr hj, ?_⟩
    rw [if_pos htype]
    exact List.mem_map.mpr ⟨i, List.mem_range.mpr hi, rfl⟩

theorem nodup_stringPlaces : (stringPlaces types recordNumber).Nodup := by
  unfold stringPlaces
  rw [List.nodup_flatMap]
  constructor
  · intro m hm
    rw [List.mem_range] at hm
    split
    · refine List.Nodup.map_on ?_ List.nodup_range
      intro n _ n' _ he
      exact (row_column_unique hm hm he).1
    · exact List.nodup_nil
  · refine List.Pairwise.imp_of_mem ?_ List.nodup_range
    intro m m' hm hm' hne place hplace hplace'
    rw [List.mem_range] at hm hm'
    dsimp only at hplace hplace'
    split at hplace
    · split at hplace'
      · obtain ⟨n, _, rfl⟩ := List.mem_map.mp hplace
        obtain ⟨n', _, he⟩ := List.mem_map.mp hplace'
        exact hne (row_column_unique hm' hm he).2.symm
      · cases hplace'
    · cases hplace

variable {env : Env} {dataBuffer : List FieldData}

section Counters

variable {width m rounds : ℕ}

theorem relocateColumn_eq_none (h : 2 ^ 16 ≤ recordNumber) (rounds : ℕ) (n : BitVec 16)
    (dataBuffer : List FieldData) :
    relocateColumn env width recordNumber m rounds n dataBuffer = none := by
  induction rounds generalizing n dataBuffer with
  | zero => rfl
  | succ rounds ih =>
    rw [relocateColumn, if_pos (n.isLt.trans_le h)]
    exact ih _ _

theorem toNat_counter_add_one {n : BitVec 16} (h : n.toNat < 2 ^ 16 - 1) :
    (n + 1).toNat = n.toNat + 1 := by
  rw [BitVec.toNat_add]
  change (n.toNat + 1) % 2 ^ 16 = n.toNat + 1
  omega

theorem relocateColumn_eq (env : Env) (width m : ℕ) (h : recordNumber < 2 ^ 16) {n : BitVec 16}
    (hn : n.toNat ≤ recordNumber) (hrounds : recordNumber - n.toNat < rounds)
    (dataBuffer : List FieldData) :
    relocateColumn env width recordNumber m rounds n dataBuffer =
      some (((List.range' n.toNat (recordNumber - n.toNat)).map (· * width + m)).foldl
        (fun dataBuffer place => dataBuffer.modify place (addAddress env)) dataBuffer) := by
  induction rounds generalizing n dataBuffer with
  | zero => omega
  | succ rounds ih =>
    rw [relocateColumn]
    split
    · next hlt =>
      have hnext := toNat_counter_add_one (n := n) (by omega)
      have hleft : recordNumber - n.toNat = recordNumber - (n.toNat + 1) + 1 := by omega
      rw [ih (by omega) (by omega), hnext, hleft, List.range'_succ]
      rfl
    · next hge =>
      rw [Nat.sub_eq_zero_of_le (by omega)]
      rfl

theorem relocateColumn_zero (env : Env) (width m : ℕ) (h : recordNumber < 2 ^ 16)
    (dataBuffer : List FieldData) :
    relocateColumn env width recordNumber m (recordNumber + 1) 0 dataBuffer =
      some (((List.range recordNumber).map (· * width + m)).foldl
        (fun dataBuffer place => dataBuffer.modify place (addAddress env)) dataBuffer) := by
  rw [List.range_eq_range']
  exact relocateColumn_eq env width m h (n := 0) (Nat.zero_le _) (Nat.lt_succ_self _) dataBuffer

theorem relocateColumns_eq_none (h : 2 ^ 16 ≤ types.length) (rounds : ℕ) (m : BitVec 16)
    (dataBuffer : List FieldData) :
    relocateColumns env types recordNumber rounds m dataBuffer = none := by
  induction rounds generalizing m dataBuffer with
  | zero => rfl
  | succ rounds ih =>
    rw [relocateColumns, if_pos (m.isLt.trans_le h)]
    split
    · exact ih _ _
    · exact Option.bind_eq_none_iff.mpr fun _ _ => ih _ _

/-- The loop does not get past a column of texts with too many records. -/
theorem relocateColumns_stuck (h : 2 ^ 16 ≤ recordNumber) {c : ℕ}
    (hc : types[c]? = some .string) (hlen : types.length < 2 ^ 16) (rounds : ℕ) {m : BitVec 16}
    (hm : m.toNat ≤ c) (dataBuffer : List FieldData) :
    relocateColumns env types recordNumber rounds m dataBuffer = none := by
  have hlt := (List.getElem?_eq_some_iff.mp hc).1
  induction rounds generalizing m dataBuffer with
  | zero => rfl
  | succ rounds ih =>
    rw [relocateColumns, if_pos (by omega)]
    rcases hm.eq_or_lt with hm | hm
    · rw [hm, hc, if_neg (by simp), relocateColumn_eq_none h]
      rfl
    · have hnext := toNat_counter_add_one (n := m) (by omega)
      split
      · exact ih (by omega) _
      · exact Option.bind_eq_none_iff.mpr fun _ _ => ih (by omega) _

theorem relocateColumns_eq (hlen : types.length < 2 ^ 16)
    (hr : .string ∈ types → recordNumber < 2 ^ 16) {m : BitVec 16} (hm : m.toNat ≤ types.length)
    (hrounds : types.length - m.toNat < rounds) (dataBuffer : List FieldData) :
    relocateColumns env types recordNumber rounds m dataBuffer =
      some (((List.range' m.toNat (types.length - m.toNat)).flatMap fun m =>
        if types[m]? = some .string then
          (List.range recordNumber).map fun n => n * types.length + m
        else []).foldl
          (fun dataBuffer place => dataBuffer.modify place (addAddress env)) dataBuffer) := by
  induction rounds generalizing m dataBuffer with
  | zero => omega
  | succ rounds ih =>
    rw [relocateColumns]
    split
    · next hlt =>
      have hnext := toNat_counter_add_one (n := m) (by omega)
      have hleft : types.length - m.toNat = types.length - (m.toNat + 1) + 1 := by omega
      have hrest := ih (m := m + 1) (by omega) (by omega)
      rw [hnext] at hrest
      rw [hleft, List.range'_succ, List.flatMap_cons, List.foldl_append]
      by_cases hstring : types[m.toNat]? = some .string
      · rw [if_neg (not_not.mpr hstring), if_pos hstring,
          relocateColumn_zero env _ _ (hr (List.mem_of_getElem? hstring))]
        exact hrest _
      · rw [if_pos hstring, if_neg hstring]
        exact hrest dataBuffer
    · next hge =>
      rw [Nat.sub_eq_zero_of_le (by omega)]
      rfl

end Counters

theorem relocate_eq (env : Env) (dataBuffer : List FieldData) (hf : types.length < 2 ^ 16)
    (hr : .string ∈ types → recordNumber < 2 ^ 16) :
    relocate env types recordNumber dataBuffer =
      some ((stringPlaces types recordNumber).foldl
        (fun dataBuffer place => dataBuffer.modify place (addAddress env)) dataBuffer) := by
  rw [stringPlaces, List.range_eq_range' (n := types.length)]
  exact relocateColumns_eq hf hr (m := 0) (Nat.zero_le _) (Nat.lt_succ_self _) dataBuffer

/-- The loops end exactly when their counters get to the numbers of columns and records. -/
theorem lt_of_relocate_eq_some {dataBuffer' : List FieldData}
    (h : relocate env types recordNumber dataBuffer = some dataBuffer') :
    types.length < 2 ^ 16 ∧ (.string ∈ types → recordNumber < 2 ^ 16) := by
  unfold relocate at h
  have hf : types.length < 2 ^ 16 := by
    by_contra hge
    rw [relocateColumns_eq_none (by omega)] at h
    cases h
  refine ⟨hf, fun hstring => ?_⟩
  by_contra hge
  obtain ⟨c, hc⟩ := List.mem_iff_getElem?.mp hstring
  rw [relocateColumns_stuck (by omega) hc hf _ (Nat.zero_le _)] at h
  cases h

def relocated (env : Env) (type : FieldType) (data : FieldData) : FieldData :=
  if type = .string then env.address + data.half.signExtend 64 else data

theorem relocate_eq_some {dataBuffer' : List FieldData}
    (h : relocate env types recordNumber dataBuffer = some dataBuffer') :
    (.string ∈ types → recordNumber < 2 ^ 16) ∧ dataBuffer'.length = dataBuffer.length ∧
      ∀ i j type data, i < recordNumber → types[j]? = some type →
        dataBuffer[i * types.length + j]? = some data →
        dataBuffer'[i * types.length + j]? = some (relocated env type data) := by
  obtain ⟨hf, hr⟩ := lt_of_relocate_eq_some h
  rw [relocate_eq env dataBuffer hf hr, Option.some.injEq] at h
  subst h
  refine ⟨hr, length_foldl_modify _ _ _, ?_⟩
  intro i j type data hi htype hdata
  have hj := (List.getElem?_eq_some_iff.mp htype).1
  rw [getElem?_foldl_modify _ nodup_stringPlaces, hdata]
  unfold relocated
  by_cases hstring : type = .string
  · rw [if_pos ((mem_stringPlaces hj).mpr ⟨hi, hstring ▸ htype⟩), if_pos hstring]
    rfl
  · rw [if_neg, if_neg hstring]
    intro hmem
    have htype' := ((mem_stringPlaces hj).mp hmem).2
    rw [htype, Option.some.injEq] at htype'
    exact hstring htype'

end Relocate

section Index

variable {t t' : Tab} {column : ℤ}

def indexRow (t : Tab) (index : List (BitVec 32 × ℤ)) (i : ℕ) :
    Option (List (BitVec 32 × ℤ)) := do
  let position ← int32 (i * t.fieldNumber)
  let data ← cellAt t.dataBuffer position
  return if (index.lookup data.half).isSome then index else index ++ [(data.half, position)]

theorem createIndex_eq
    (h : ¬ (column < 0 ∨ column > t.fieldNumber ∨ t.indexColumn = column)) :
    t.createIndex column = ((List.range t.recordNumber.toNat).foldlM (indexRow t) []).map
      fun hashIndex => { t with hashIndex := hashIndex } := by
  rw [createIndex, if_neg h, Option.map_eq_bind]
  rfl

theorem createIndex_eq_some (h : t.createIndex column = some t') :
    ∃ hashIndex, t' = { t with hashIndex := hashIndex } := by
  by_cases hcolumn : column < 0 ∨ column > t.fieldNumber ∨ t.indexColumn = column
  · rw [createIndex, if_pos hcolumn] at h
    exact ⟨t.hashIndex, (Option.some.inj h).symm⟩
  · rw [createIndex_eq hcolumn, Option.map_eq_some_iff] at h
    obtain ⟨hashIndex, -, he⟩ := h
    exact ⟨hashIndex, he.symm⟩

theorem cellAt_natCast (dataBuffer : List FieldData) (n : ℕ) :
    cellAt dataBuffer n = dataBuffer[n]? := by
  unfold cellAt
  rw [if_neg (by omega), Int.toNat_natCast]

theorem exists_createIndex {f : ℕ} (hf : t.fieldNumber = f)
    (h : ∀ i < t.recordNumber.toNat, i * f < 2 ^ 31 ∧ i * f < t.dataBuffer.length)
    (column : ℤ) : ∃ t', t.createIndex column = some t' := by
  by_cases hcolumn : column < 0 ∨ column > t.fieldNumber ∨ t.indexColumn = column
  · exact ⟨t, if_pos hcolumn⟩
  · have hsome : ∀ i ∈ List.range t.recordNumber.toNat, ∀ index,
        (indexRow t index i).isSome := by
      intro i hi index
      obtain ⟨hlt, hlen⟩ := h i (List.mem_range.mp hi)
      rw [indexRow, hf, ← Int.natCast_mul, int32_eq_some (by omega) (by omega),
        Option.bind_eq_bind, Option.bind_some, cellAt_natCast, List.getElem?_eq_getElem hlen]
      rfl
    obtain ⟨hashIndex, hfold⟩ := Option.isSome_iff_exists.mp (foldlM_isSome hsome [])
    refine ⟨{ t with hashIndex := hashIndex }, ?_⟩
    rw [createIndex_eq hcolumn, hfold]
    rfl

theorem createIndex_isSome {f r : ℕ} (hf : t.fieldNumber = f) (hr : t.recordNumber = r)
    (hpos : 0 < f) (hlen : r * f ≤ t.dataBuffer.length) (hlt : r * f < 2 ^ 31) :
    ∃ t', t.createIndex column = some t' := by
  refine exists_createIndex hf (fun i hi => ?_) column
  rw [hr, Int.toNat_natCast] at hi
  have hlast := row_end_le f hi
  constructor <;> omega

end Index

section Install

variable {env : Env} {t t' : Tab} {types : List FieldType} {s : Reading}

theorem block_eq (s : Reading) :
    (s.stringBuffer.flatMap fun entry => entry.1 ++ [0]) = terminated 0 s.texts := by
  unfold terminated Reading.texts
  rw [List.flatMap_map]

structure Installed (env : Env) (types : List FieldType) (s : Reading) (t : Tab) : Prop where
  type_eq : t.type = types
  recordNumber_eq : t.recordNumber = s.recordNumber
  fieldNumber_eq : t.fieldNumber = types.length
  address_eq : t.address = env.address
  stringBuffer_eq : t.stringBuffer = 0 :: terminated 0 s.texts
  stringBufferSize_eq : t.stringBufferSize = s.stringBufferSize + 1
  recordNumber_lt : .string ∈ types → s.recordNumber < 2 ^ 16
  length_eq : t.dataBuffer.length = s.dataBuffer.length
  cell_eq : ∀ i j type data, i < s.recordNumber → types[j]? = some type →
    s.dataBuffer[i * types.length + j]? = some data →
    t.dataBuffer[i * types.length + j]? = some (relocated env type data)

theorem install_eq_some (h : install env t types s = some t') : Installed env types s t' := by
  unfold install at h
  simp only [Option.bind_eq_bind, Option.bind_eq_some_iff, int32_eq_some_iff] at h
  obtain ⟨_, ⟨rfl, _⟩, dataBuffer, hdata, hindex⟩ := h
  obtain ⟨hashIndex, rfl⟩ := createIndex_eq_some hindex
  obtain ⟨hlt, hlen, hcell⟩ := relocate_eq_some hdata
  exact ⟨rfl, rfl, rfl, rfl, congrArg _ (block_eq s), rfl, hlt, hlen, hcell⟩

theorem install_isSome (env : Env) (t : Tab) (hf : types.length < 2 ^ 16) (hpos : 0 < types.length)
    (hr : .string ∈ types → s.recordNumber < 2 ^ 16)
    (hlen : s.recordNumber * types.length ≤ s.dataBuffer.length)
    (hlt : s.recordNumber * types.length < 2 ^ 31) :
    ∃ t', install env t types s = some t' := by
  have hle : s.recordNumber ≤ s.recordNumber * types.length := Nat.le_mul_of_pos_right _ hpos
  have hdata := relocate_eq env s.dataBuffer hf hr
  have hlen' := (relocate_eq_some hdata).2.1
  unfold install
  rw [int32_eq_some (by omega) (by omega), Option.bind_eq_bind, Option.bind_some, hdata,
    Option.bind_eq_bind, Option.bind_some]
  exact createIndex_isSome rfl rfl hpos (hlen.trans hlen'.symm.le) hlt

/-- What a cell of a column must be for a text that stands in it. -/
def Holds (env : Env) (t : Tab) (type : FieldType) (text : List Byte) (data : FieldData) :
    Prop :=
  match type with
  | .int => data.half = env.atoi text
  | .float => data.half = env.atof text
  | .string => t.stringValue data = some text

theorem toNat_signExtend_place {n : ℕ} (h : n < 2 ^ 31) :
    ((BitVec.ofNat 32 n).signExtend 64).toNat = n := by
  have hn : (BitVec.ofNat 32 n).toNat = n := by
    rw [BitVec.toNat_ofNat]
    omega
  have hmsb : (BitVec.ofNat 32 n).msb = false := by
    rw [BitVec.msb_eq_false_iff_two_mul_lt, hn]
    omega
  rw [BitVec.signExtend_eq_setWidth_of_msb_false hmsb, BitVec.toNat_setWidth, hn]
  omega

theorem Installed.holds (ht : Installed env types s t) {known : List (FieldType × List Byte)}
    (hs : s.Represents env known) (hsize : s.stringBufferSize < 2 ^ 31)
    {cell : FieldType × List Byte} {data : FieldData}
    (hdata : Encodes env s.stringBuffer cell data) :
    Holds env t cell.1 cell.2 (relocated env cell.1 data) := by
  unfold Holds relocated
  unfold Encodes at hdata
  cases htype : cell.1 with
  | int | float =>
    rw [htype] at hdata
    exact hdata
  | string =>
    rw [htype] at hdata
    obtain ⟨k, place, hk, hhalf⟩ := hdata
    have htext : s.texts[k]? = some cell.2 := by
      unfold Reading.texts
      rw [List.getElem?_map, hk]
      rfl
    have hplace := hs.place_eq k cell.2 place hk
    have hlt := length_terminated_take_lt (z := (0 : Byte)) htext
    rw [← hplace, ← hs.size_eq] at hlt
    have hoffset : (env.address + data.half.signExtend 64 - t.address).toNat = place + 1 := by
      rw [ht.address_eq, BitVec.add_comm, BitVec.add_sub_cancel, hhalf]
      exact toNat_signExtend_place (by omega)
    unfold stringValue
    dsimp only
    rw [if_pos rfl, hoffset, if_pos, ht.stringBuffer_eq, List.drop_succ_cons, hplace,
      takeWhile_drop_terminated htext (hs.notMem _ (List.mem_of_getElem? htext))]
    rw [ht.stringBuffer_eq, List.length_cons, ← hs.size_eq]
    omega

theorem Installed.searchPosition_eq (ht : Installed env types s t)
    (hlen : s.dataBuffer.length = s.recordNumber * types.length)
    (hlt : s.recordNumber * types.length < 2 ^ 31) {i j : ℕ} (hi : i < s.recordNumber)
    (hj : j < types.length) :
    t.searchPosition i j = t.dataBuffer[i * types.length + j]?.map some := by
  have hlast := row_end_le types.length hi
  have hcast : (BitVec.ofNat 32 t.dataBuffer.length).toInt = t.dataBuffer.length := by
    rw [ht.length_eq, hlen]
    exact (toInt_ofNat_eq_iff _).mpr hlt
  have hposition : (i : ℤ) * types.length + j = ((i * types.length + j : ℕ) : ℤ) := by
    push_cast
    rfl
  unfold searchPosition
  rw [ht.fieldNumber_eq, int32_eq_some (by omega) (by omega), Option.bind_eq_bind,
    Option.bind_some, hposition, int32_eq_some (by omega) (by omega), Option.bind_eq_bind,
    Option.bind_some, hcast, if_neg, cellAt_natCast]
  · rw [List.getElem?_eq_getElem (by rw [ht.length_eq, hlen]; omega)]
    rfl
  · rw [ht.length_eq, hlen]
    omega

/-- The last cell of a table that is too large is not found. -/
theorem Installed.searchPosition_ne (ht : Installed env types s t)
    (hlen : s.dataBuffer.length = s.recordNumber * types.length)
    (hge : 2 ^ 31 ≤ s.recordNumber * types.length) (data : FieldData) :
    t.searchPosition ((s.recordNumber - 1 : ℕ) : ℤ) ((types.length - 1 : ℕ) : ℤ) ≠
      some (some data) := by
  intro hfound
  unfold searchPosition at hfound
  simp only [Option.bind_eq_bind, Option.bind_eq_some_iff, int32_eq_some_iff] at hfound
  obtain ⟨_, ⟨rfl, _⟩, _, ⟨rfl, hlow, hposition⟩, hcell⟩ := hfound
  rw [ht.fieldNumber_eq] at hlow hposition hcell
  obtain ⟨r, hr⟩ := Nat.exists_eq_succ_of_ne_zero
    (show s.recordNumber ≠ 0 by rintro h; rw [h] at hge; omega)
  obtain ⟨f, hf⟩ := Nat.exists_eq_succ_of_ne_zero
    (show types.length ≠ 0 by rintro h; rw [h] at hge; omega)
  have hlast : ((s.recordNumber - 1 : ℕ) : ℤ) * types.length + ((types.length - 1 : ℕ) : ℤ) =
      ((s.recordNumber * types.length : ℕ) : ℤ) - 1 := by
    rw [hr, hf, Nat.succ_sub_one, Nat.succ_sub_one]
    push_cast
    ring
  rw [hlast] at hlow hposition hcell
  -- a position that does not overflow is the last one below the limit
  have hsize : s.recordNumber * types.length = 2 ^ 31 := by omega
  have hcast : (BitVec.ofNat 32 t.dataBuffer.length).toInt = -2 ^ 31 := by
    rw [ht.length_eq, hlen, hsize]
    decide
  rw [hcast, if_pos (Or.inr (by omega))] at hcell
  cases hcell

end Install

section Open

variable {env : Env} {t : Tab} {memory : List Byte} {types : List FieldType}

/-- The texts of the column types, without the empty cells of their line. -/
def typeTexts (line : List Byte) : List (List Byte) := (cells line).filter (· ≠ [])

theorem itemsAt_tab (line : List Byte) : itemsAt tab true line = typeTexts line := by
  unfold itemsAt typeTexts cells
  refine List.filter_congr fun item _ => ?_
  cases item <;> rfl

theorem length_typeTexts_le (line : List Byte) : (typeTexts line).length ≤ line.length := by
  have hcells : (cells line).flatten.length ≤ line.length := by
    rw [flatten_cells]
    exact List.length_filter_le _ _
  refine le_trans ?_ hcells
  unfold typeTexts
  induction cells line with
  | nil => exact Nat.zero_le _
  | cons cell cells ih =>
    rw [List.flatten_cons, List.length_append]
    cases cell with
    | nil =>
      rw [List.filter_cons_of_neg (by simp)]
      simpa using ih
    | cons c cell =>
      rw [List.filter_cons_of_pos (by simp), List.length_cons, List.length_cons]
      omega

theorem length_of_mapM {α β : Type} {f : α → Option β} {l : List α} {m : List β}
    (h : l.mapM f = some m) : m.length = l.length := by
  induction l generalizing m with
  | nil =>
    rw [List.mapM_nil] at h
    cases h
    rfl
  | cons a l ih =>
    rw [List.mapM_cons] at h
    simp only [Option.bind_eq_bind, Option.bind_eq_some_iff] at h
    obtain ⟨b, _, m', hm, he⟩ := h
    cases he
    rw [List.length_cons, List.length_cons, ih hm]

theorem openFromMemoryText_eq (env : Env) (t : Tab) {typeLine nameLine rest rest' : List Byte}
    (hget : getLineFromMemory lineSize memory = some (typeLine, rest))
    (htypes : (typeTexts typeLine).mapM FieldType.ofText = some types) (hne : types ≠ [])
    (hget' : getLineFromMemory lineSize rest = some (nameLine, rest')) :
    ∃ names, openFromMemoryText env t memory =
      ((memoryLines rest'.length rest').foldlM (Reading.addRecord env types)
        (Reading.new t.dataBuffer)).bind fun s =>
          (install env { t with fieldnames := names } types s).bind fun t => some (true, t) := by
  have htexts : typeTexts typeLine ≠ [] := by
    intro hnil
    rw [hnil] at htypes
    exact hne (Option.some.inj htypes).symm
  have hline : typeLine ≠ [] := by
    rintro rfl
    exact htexts rfl
  have hnames := explode_eq_items tab true nameLine
  refine ⟨if nameLine = [] then [] else itemsAt tab true nameLine, ?_⟩
  unfold openFromMemoryText
  rw [hget]
  dsimp only
  rw [explode_eq_items, if_neg hline, itemsAt_tab, Option.bind_eq_bind, Option.bind_some,
    if_neg htexts, htypes]
  dsimp only
  rw [hget']
  dsimp only
  rw [hnames]
  rfl

theorem Reading.Represents.length_dataBuffer {s : Reading} {records : List (List Byte)}
    (hs : s.Represents env (records.flatMap (row types))) (hnum : s.recordNumber = records.length) :
    s.dataBuffer.length = s.recordNumber * types.length := by
  rw [← hs.encodes.length_eq, hnum]
  exact length_flatMap_row fun line _ => length_row types line

/-- The texts of a table whose offsets can be relocated take less than two gigabytes. -/
theorem size_lt {n size : ℕ} (hf : types.length < lineSize) (hn : .string ∈ types → n < 2 ^ 16)
    (hsize : size ≤ n * rowBound types) : size < 2 ^ 31 - 1 := by
  unfold rowBound lineSize at *
  split at hsize
  · rename_i hstring
    have hle := Nat.mul_le_mul (Nat.le_of_lt_succ (hn hstring))
      (show 1024 * 10 + types.length ≤ 20480 by omega)
    omega
  · omega

theorem openFromMemoryText_read (env : Env) {typeLine nameLine rest rest' : List Byte}
    (hget : getLineFromMemory lineSize memory = some (typeLine, rest))
    (htypes : (typeTexts typeLine).mapM FieldType.ofText = some types) (hne : types ≠ [])
    (hget' : getLineFromMemory lineSize rest = some (nameLine, rest')) :
    let records := (memoryLines rest'.length rest').filter isRecord
    ∃ names s, s.Represents env (records.flatMap (row types)) ∧
      s.recordNumber = records.length ∧ types.length < lineSize ∧
      s.stringBufferSize ≤ records.length * rowBound types ∧
      openFromMemoryText env new memory =
        (install env { new with fieldnames := names } types s).bind fun t => some (true, t) := by
  intro records
  obtain ⟨names, hopen⟩ := openFromMemoryText_eq env new hget htypes hne hget'
  have hmem : ∀ l ∈ memoryLines rest'.length rest', l.length < lineSize ∧ 0 ∉ l :=
    fun l hl => memoryLines_line hl
  obtain ⟨s, hfold, hrep, hnum, hsize⟩ := (Reading.represents_new env).addRecords types hmem
  have hlen := length_of_mapM htypes
  have hle := length_typeTexts_le typeLine
  have hshort := (getLineFromMemory_line hget).1
  refine ⟨names, s, hrep, ?_, by omega, ?_, ?_⟩
  · rw [hnum]
    exact Nat.zero_add _
  · exact hsize.trans (Nat.zero_add _).le
  · rw [hopen]
    change Option.bind (List.foldlM _ (Reading.new []) _) _ = _
    rw [hfold, Option.bind_some]

/-- A text with a line of column types, a line of names, and lines of records, where every
line fits into the buffer, and every record begins with a cell, is no comment and has no
more cells than there are columns. -/
structure WellFormed (memory : List Byte) (types : List FieldType)
    (records : List (List Byte)) : Prop where
  starts : StartsLine memory
  lines : ∃ typeLine nameLine, textLines memory = typeLine :: nameLine :: records ∧
    (typeTexts typeLine).mapM FieldType.ofText = some types
  types_ne_nil : types ≠ []
  short : ∀ line ∈ textLines memory, line.length < lineSize
  records : ∀ line ∈ records, line.head? ≠ some 0x23 ∧ (cells line).head? ≠ some [] ∧
    (cells line).length ≤ types.length

/-- Every cell is found, and holds what stands in the text. -/
def Faithful (env : Env) (t : Tab) (types : List FieldType) (records : List (List Byte)) :
    Prop :=
  t.recordNumber = records.length ∧
    ∀ (r c : ℕ) line type, records[r]? = some line → types[c]? = some type →
      ∃ data, t.searchPosition r c = some (some data) ∧
        Holds env t type ((cells line).getD c []) data

theorem isRecord_of_wellFormed {records : List (List Byte)} (h : WellFormed memory types records)
    {line : List Byte} (hline : line ∈ records) : isRecord line = true := by
  obtain ⟨hcomment, hfirst, _⟩ := h.records line hline
  refine decide_eq_true ⟨hcomment, ?_, hfirst⟩
  rintro rfl
  exact hfirst rfl

theorem WellFormed.openFromMemoryText {records : List (List Byte)}
    (h : WellFormed memory types records) (env : Env) :
    ∃ names s, s.Represents env (records.flatMap (row types)) ∧
      s.recordNumber = records.length ∧ types.length < lineSize ∧
      s.stringBufferSize ≤ records.length * rowBound types ∧
      openFromMemoryText env new memory =
        (install env { new with fieldnames := names } types s).bind fun t => some (true, t) := by
  obtain ⟨typeLine, nameLine, hlines, htypes⟩ := h.lines
  rcases getLineFromMemory_cases h.starts h.short with
    ⟨hnil, _⟩ | ⟨line, rest, hcons, hstart, _, hget⟩
  · rw [hnil] at hlines
    cases hlines
  have hshort := h.short
  rw [hcons] at hlines hshort
  obtain ⟨rfl, hrest⟩ := List.cons.inj hlines
  have hshort' := fun l hl => hshort l (List.mem_cons_of_mem line hl)
  rcases getLineFromMemory_cases hstart hshort' with
    ⟨hnil, _⟩ | ⟨line', rest', hcons', hstart', _, hget'⟩
  · rw [hnil] at hrest
    cases hrest
  rw [hcons'] at hrest hshort'
  obtain ⟨rfl, rfl⟩ := List.cons.inj hrest
  have hread := memoryLines_eq le_rfl hstart' fun l hl => hshort' l (List.mem_cons_of_mem line' hl)
  have hfilter : (textLines rest').filter isRecord = textLines rest' :=
    List.filter_eq_self.mpr fun l hl => isRecord_of_wellFormed h hl
  have hall := openFromMemoryText_read env hget htypes h.types_ne_nil hget'
  rwa [hread, hfilter] at hall

theorem lines_of_openFromMemoryText {t₀ : Tab}
    (h : openFromMemoryText env t₀ memory = some (true, t)) :
    ∃ typeLine rest types nameLine rest',
      getLineFromMemory lineSize memory = some (typeLine, rest) ∧
      (typeTexts typeLine).mapM FieldType.ofText = some types ∧ types ≠ [] ∧
      getLineFromMemory lineSize rest = some (nameLine, rest') := by
  unfold openFromMemoryText at h
  split at h
  · cases h
  · rename_i typeLine rest hget
    rw [explode_eq_items, Option.bind_eq_bind, Option.bind_some, itemsAt_tab] at h
    have htexts : (if typeLine = [] then [] else typeTexts typeLine) = typeTexts typeLine := by
      split
      · rename_i hnil
        rw [hnil]
        rfl
      · rfl
    rw [htexts] at h
    split at h
    · cases h
    · rename_i htexts
      split at h
      · cases h
      · rename_i types htypes
        split at h
        · cases h
        · rename_i nameLine rest' hget'
          refine ⟨typeLine, rest, types, nameLine, rest', hget, htypes, ?_, hget'⟩
          rintro rfl
          exact htexts (List.length_eq_zero_iff.mp (length_of_mapM htypes).symm)

theorem openFromMemoryText_eq_true (h : openFromMemoryText env new memory = some (true, t)) :
    ∃ types s known, Installed env types s t ∧ types ≠ [] ∧ types.length < lineSize ∧
      s.Represents env known ∧ s.dataBuffer.length = s.recordNumber * types.length ∧
      s.stringBufferSize < 2 ^ 31 - 1 := by
  obtain ⟨typeLine, rest, types, nameLine, rest', hget, htypes, hne, hget'⟩ :=
    lines_of_openFromMemoryText h
  obtain ⟨names, s, hs, hnum, hf, hsize, hopen⟩ :=
    openFromMemoryText_read env hget htypes hne hget'
  rw [h] at hopen
  obtain ⟨t', hinstall, he⟩ := Option.bind_eq_some_iff.mp hopen.symm
  cases he
  have ht := install_eq_some hinstall
  exact ⟨types, s, _, ht, hne, hf, hs, hs.length_dataBuffer hnum,
    size_lt hf (hnum ▸ ht.recordNumber_lt) hsize⟩

theorem Installed.faithful (ht : Installed env types s t) {records : List (List Byte)}
    (hs : s.Represents env (records.flatMap (row types))) (hnum : s.recordNumber = records.length)
    (hsize : s.stringBufferSize < 2 ^ 31) (hlt : s.recordNumber * types.length < 2 ^ 31) :
    Faithful env t types records := by
  refine ⟨by rw [ht.recordNumber_eq, hnum], ?_⟩
  intro r c line type hline htype
  have hr : r < s.recordNumber := hnum ▸ (List.getElem?_eq_some_iff.mp hline).1
  have hc := (List.getElem?_eq_some_iff.mp htype).1
  have hcell : (records.flatMap (row types))[r * types.length + c]? =
      some (type, (cells line).getD c []) := by
    rw [getElem?_flatMap_row (fun line _ => length_row types line) hc, hline]
    exact getElem?_row htype
  obtain ⟨data, hdata, hencodes⟩ := forall₂_getElem? hs.encodes hcell
  refine ⟨relocated env type data, ?_, ht.holds hs hsize hencodes⟩
  rw [ht.searchPosition_eq (hs.length_dataBuffer hnum) hlt hr hc,
    ht.cell_eq r c type data hr htype hdata]
  rfl

theorem Installed.lt_of_faithful (ht : Installed env types s t) {records : List (List Byte)}
    (hs : s.Represents env (records.flatMap (row types))) (hnum : s.recordNumber = records.length)
    (hfaithful : Faithful env t types records) : s.recordNumber * types.length < 2 ^ 31 := by
  by_contra hge
  rw [Nat.not_lt] at hge
  have hpos : 0 < s.recordNumber * types.length := by omega
  have hrecord : s.recordNumber - 1 < records.length := by
    have := Nat.pos_of_mul_pos_right hpos
    omega
  have hcolumn : types.length - 1 < types.length := by
    have := Nat.pos_of_mul_pos_left hpos
    omega
  obtain ⟨data, hfound, _⟩ := hfaithful.2 _ _ _ _ (List.getElem?_eq_getElem hrecord)
    (List.getElem?_eq_getElem hcolumn)
  exact ht.searchPosition_ne (hs.length_dataBuffer hnum) hge data hfound

/-- A well-formed text is opened faithfully exactly when a table with texts has less than
65536 records, and all positions are less than two to the 31. -/
theorem open_faithful_iff (env : Env) {records : List (List Byte)}
    (h : WellFormed memory types records) :
    (∃ t, openFromMemoryText env new memory = some (true, t) ∧ Faithful env t types records) ↔
      (.string ∈ types → records.length < 2 ^ 16) ∧
        records.length * types.length < 2 ^ 31 := by
  obtain ⟨names, s, hs, hnum, hf, hsize, hopen⟩ := h.openFromMemoryText env
  constructor
  · rintro ⟨t, ht, hfaithful⟩
    rw [hopen, Option.bind_eq_some_iff] at ht
    obtain ⟨t', hinstall, he⟩ := ht
    cases he
    have hinst := install_eq_some hinstall
    exact ⟨hnum ▸ hinst.recordNumber_lt, hnum ▸ hinst.lt_of_faithful hs hnum hfaithful⟩
  · rintro ⟨hr, hlt⟩
    have hsmall := size_lt hf hr hsize
    rw [← hnum] at hr hlt
    obtain ⟨t, hinstall⟩ := install_isSome env { new with fieldnames := names }
      (hf.trans (by decide)) (List.length_pos_iff.mpr h.types_ne_nil) hr
      (hs.length_dataBuffer hnum).ge hlt
    refine ⟨t, by rw [hopen, hinstall]; rfl, ?_⟩
    exact (install_eq_some hinstall).faithful hs hnum (by omega) hlt

/-- A table of one number and one text, of which the second record has no text. -/
theorem open_faithful_iff_pair :
    let memory : List Byte := [0x49, 0x4E, 0x54, 0x09, 0x53, 0x54, 0x52, 0x49, 0x4E, 0x47, 0x0D,
      0x0A, 0x69, 0x09, 0x6E, 0x0A, 0x31, 0x09, 0x61, 0x62, 0x0A, 0x32]
    let env : Env := ⟨fun text => BitVec.ofNat 32 text.length, fun _ => 0, 4096, fun _ => 7⟩
    ∃ t, openFromMemoryText env new memory = some (true, t) ∧
      Faithful env t [.int, .string] [[0x31, 0x09, 0x61, 0x62], [0x32]] :=
  (open_faithful_iff _ {
    starts := by rintro _ ⟨⟩; decide
    lines := ⟨_, _, rfl, by decide⟩
    types_ne_nil := by decide
    short := by decide
    records := by decide }).mpr ⟨by decide, by decide⟩

theorem install_eq_none (env : Env) (t : Tab) {s : Reading} (hstring : .string ∈ types)
    (hge : 2 ^ 16 ≤ s.recordNumber) : install env t types s = none := by
  cases hinstall : install env t types s with
  | none => rfl
  | some t' =>
    have := (install_eq_some hinstall).recordNumber_lt hstring
    omega

def letters (n : ℕ) : List Byte :=
  [0x53, 0x54, 0x52, 0x49, 0x4E, 0x47] ++ lineFeed :: ([0x6E] ++ lineFeed ::
    (List.replicate n [0x61, lineFeed]).flatten)

theorem textLines_letters (n : ℕ) :
    textLines (letters n) =
      [0x53, 0x54, 0x52, 0x49, 0x4E, 0x47] :: [0x6E] :: List.replicate n [0x61] := by
  have hletters : textLines (List.replicate n [0x61, lineFeed]).flatten =
      List.replicate n [0x61] := by
    induction n with
    | zero => rfl
    | succ n ih =>
      rw [List.replicate_succ, List.flatten_cons, List.replicate_succ, ← ih]
      exact @textLines_line [0x61] (by decide) (by decide) _
  unfold letters
  rw [textLines_line (by decide) (by decide), textLines_line (by decide) (by decide), hletters]

theorem wellFormed_letters (n : ℕ) :
    WellFormed (letters n) [.string] (List.replicate n [0x61]) where
  starts := by
    rintro _ ⟨⟩
    decide
  lines := ⟨_, _, textLines_letters n, by decide⟩
  types_ne_nil := by decide
  short := by
    intro line hline
    rw [textLines_letters, List.mem_cons, List.mem_cons] at hline
    rcases hline with rfl | rfl | hline
    · decide
    · decide
    · rw [List.eq_of_mem_replicate hline]
      decide
  records := by
    intro line hline
    rw [List.eq_of_mem_replicate hline]
    decide

/-- With 65536 records, opening the column of letters does not end. -/
theorem letters_never_open :
    WellFormed (letters 65536) [.string] (List.replicate 65536 [0x61]) ∧
      openFromMemoryText ⟨fun _ => 0, fun _ => 0, 4096, fun _ => 0⟩ new (letters 65536) =
        none := by
  have h := wellFormed_letters 65536
  refine ⟨h, ?_⟩
  obtain ⟨names, s, _, hnum, _, _, hopen⟩ :=
    h.openFromMemoryText ⟨fun _ => 0, fun _ => 0, 4096, fun _ => 0⟩
  rw [List.length_replicate] at hnum
  rw [hopen, install_eq_none _ _ List.mem_cons_self (by omega), Option.bind_none]

end Open

end Plain.Tab
