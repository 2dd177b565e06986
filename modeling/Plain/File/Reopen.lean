import Mathlib.Data.List.Find
import Plain.File.Lookup

/-! # Opening a table again

A table that is opened from a text keeps the cells that it has, and the cells of the text come
behind them. Everything else is replaced. So the places of the new table are filled with old
cells first.
-/

namespace Plain.Tab

section Spec

/-- The number that a cell of a column held before texts were given their addresses. -/
def stored (t : Tab) (c : ℕ) (data : FieldData) : BitVec 32 :=
  if t.type[c]? = some .string then data.half - t.address.setWidth 32 else data.half

def storedAt (t : Tab) (place : ℕ) : BitVec 32 :=
  t.stored (place % t.type.length) (t.dataBuffer.getD place 0)

/-- The number at a place when the cells of a table come behind those of an old one. -/
def behind (old t : Tab) (place : ℕ) : BitVec 32 :=
  if place < old.dataBuffer.length then (old.dataBuffer.getD place 0).half
  else t.storedAt (place - old.dataBuffer.length)

def textAt (t : Tab) (value : BitVec 32) : Option (List Byte) :=
  t.stringValue (t.address + value.signExtend 64)

def SameMeaning (t : Tab) (type : FieldType) (a b : BitVec 32) : Prop :=
  if type = .string then ∃ text, t.textAt a = some text ∧ t.textAt b = some text else b = a

def indexKey (t : Tab) (value : BitVec 32) : BitVec 32 :=
  if t.type[0]? = some .string then t.address.setWidth 32 + value else value

/-- The same number is found at the same record, wherever the texts lie. -/
def SameLookups (t t' : Tab) : Prop :=
  ∀ value, t'.searchIndexEqual (t'.indexKey value) = t.searchIndexEqual (t.indexKey value)

/-- The first record with a number, where `value` gives the numbers at the places. -/
def firstWith (t : Tab) (value : ℕ → BitVec 32) (k : BitVec 32) : Option ℕ :=
  (List.range t.recordNumber.toNat).find? fun i => value (i * t.type.length) = k

/-- The old cells in front make no difference: every cell is found, also among more cells, and
means what it meant, and the first record with a number in the first column is the same. -/
structure Unmoved (old t : Tab) : Prop where
  cells : ∀ (r c : ℕ) type, r < t.recordNumber → t.type[c]? = some type →
    (t.Computes r c ∧ t.Admits r c) ∧
      t.position r c ≤
        (BitVec.ofNat 32 (old.dataBuffer.length + t.dataBuffer.length)).toInt ∧
      t.SameMeaning type (t.storedAt (r * t.type.length + c))
        (behind old t (r * t.type.length + c))
  keys : ∀ k, t.firstWith (behind old t) k = t.firstWith t.storedAt k

end Spec

section Reading

variable {env env' : Env} {old : List FieldData} {s s' : Reading}

/-- Two readings of one text, of which the second one began behind old cells. -/
structure Shifted (old : List FieldData) (s s' : Reading) : Prop where
  halves : s'.dataBuffer.map FieldData.half = (old ++ s.dataBuffer).map FieldData.half
  stringBuffer_eq : s'.stringBuffer = s.stringBuffer
  mapStringBuffer_eq : s'.mapStringBuffer = s.mapStringBuffer
  size_eq : s'.stringBufferSize = s.stringBufferSize
  recordNumber_eq : s'.recordNumber = s.recordNumber

theorem Shifted.pushBack (h : Shifted old s s') (value : BitVec 32) :
    Shifted old (s.pushBack env value) (s'.pushBack env' value) where
  halves := by
    simp only [Reading.pushBack, List.map_append, h.halves, List.map_cons, List.map_nil,
      half_ofHalf, List.append_assoc]
  stringBuffer_eq := h.stringBuffer_eq
  mapStringBuffer_eq := h.mapStringBuffer_eq
  size_eq := h.size_eq
  recordNumber_eq := h.recordNumber_eq

def SameLibrary (env env' : Env) : Prop := env'.atoi = env.atoi ∧ env'.atof = env.atof

theorem Shifted.addCell (hlib : SameLibrary env env') (h : Shifted old s s')
    (cell : FieldType × List Byte) :
    Shifted old (s.addCell env cell) (s'.addCell env' cell) := by
  unfold Reading.addCell
  cases cell.1 with
  | int => exact hlib.1 ▸ h.pushBack _
  | float => exact hlib.2 ▸ h.pushBack _
  | string =>
    rw [h.mapStringBuffer_eq]
    cases s.mapStringBuffer.lookup cell.2 with
    | none =>
      dsimp only
      rw [h.size_eq, h.stringBuffer_eq]
      apply Shifted.pushBack
      exact ⟨h.halves, rfl, rfl, rfl, h.recordNumber_eq⟩
    | some k =>
      dsimp only
      rw [h.stringBuffer_eq]
      exact h.pushBack _

theorem Shifted.addCells (hlib : SameLibrary env env') (h : Shifted old s s')
    (row : List (FieldType × List Byte)) :
    Shifted old (row.foldl (Reading.addCell env) s) (row.foldl (Reading.addCell env') s') := by
  induction row generalizing s s' with
  | nil => exact h
  | cons cell row ih => exact ih (h.addCell hlib cell)

theorem Shifted.addRecords (hlib : SameLibrary env env') {types : List FieldType}
    {lines : List (List Byte)} {r : Reading} (h : Shifted old s s')
    (hfold : lines.foldlM (Reading.addRecord env types) s = some r) :
    ∃ r', lines.foldlM (Reading.addRecord env' types) s' = some r' ∧ Shifted old r r' := by
  induction lines generalizing s s' with
  | nil =>
    obtain rfl := Option.some.inj hfold
    exact ⟨s', rfl, h⟩
  | cons line lines ih =>
    rw [List.foldlM_cons, Reading.addRecord_eq, Option.bind_eq_bind, Option.bind_some] at hfold ⊢
    refine ih ?_ hfold
    split
    · have hrow := h.addCells hlib (row types line)
      exact ⟨hrow.halves, hrow.stringBuffer_eq, hrow.mapStringBuffer_eq, hrow.size_eq,
        congrArg Nat.succ h.recordNumber_eq⟩
    · exact h

theorem shifted_new (old : List FieldData) : Shifted old (Reading.new []) (Reading.new old) where
  halves := by rw [Reading.new, Reading.new, List.append_nil]
  stringBuffer_eq := rfl
  mapStringBuffer_eq := rfl
  size_eq := rfl
  recordNumber_eq := rfl

end Reading

section Opened

variable {env env' : Env} {old t t' : Tab} {types : List FieldType} {s s' : Reading}
  {memory : List Byte}

/-- The index of a table leads to the first records of its keys. -/
def Indexed (t : Tab) : Prop := ∀ k, t.searchIndexEqual k = (t.firstRow 0 k).map t.rowPlace

theorem install_indexed (hcolumn : t.indexColumn = -1) (h : install env t types s = some t') :
    t'.Indexed ∧ ∀ i < s.recordNumber, i * types.length < 2 ^ 31 := by
  unfold install at h
  simp only [Option.bind_eq_bind, Option.bind_eq_some_iff, int32_eq_some_iff] at h
  obtain ⟨_, ⟨rfl, _⟩, dataBuffer, hdata, hindex⟩ := h
  obtain ⟨hlookup, hlt⟩ := createIndex_lookup (c := 0) (by rfl) (by exact hcolumn)
    (Nat.zero_le _) hindex
  obtain ⟨hashIndex, rfl⟩ := createIndex_eq_some hindex
  exact ⟨hlookup, hlt⟩

theorem Shifted.length_eq {old : List FieldData} (h : Shifted old s s') :
    s'.dataBuffer.length = old.length + s.dataBuffer.length := by
  have hlen := congrArg List.length h.halves
  rwa [List.length_map, List.length_map, List.length_append] at hlen

theorem install_behind {old : List FieldData} (hs : Shifted old s s') (hf : types.length < 2 ^ 16)
    (hpos : 0 < types.length) (hlen : s.dataBuffer.length = s.recordNumber * types.length)
    (hcolumn : t.indexColumn = -1) (h : install env t types s = some t') (env' : Env) (t₀ : Tab) :
    ∃ t₁, install env' t₀ types s' = some t₁ := by
  have hrow := (install_indexed hcolumn h).2
  have hr := (install_eq_some h).recordNumber_lt
  have hsize := hs.length_eq
  unfold install at h ⊢
  simp only [Option.bind_eq_bind, Option.bind_eq_some_iff] at h
  obtain ⟨_, hrecords, -⟩ := h
  obtain ⟨dataBuffer, hdata⟩ : ∃ dataBuffer', relocate env' types s.recordNumber s'.dataBuffer =
      some dataBuffer' := ⟨_, relocate_eq env' s'.dataBuffer hf hr⟩
  have hlen' := (relocate_eq_some hdata).2.1
  rw [hs.recordNumber_eq, hrecords, Option.bind_eq_bind, Option.bind_some, hdata,
    Option.bind_eq_bind, Option.bind_some]
  obtain ⟨rfl, -⟩ := int32_eq_some_iff.mp hrecords
  refine exists_createIndex (f := types.length) rfl ?_ 0
  intro i hi
  change i < s.recordNumber at hi
  have hlast := row_end_le types.length hi
  refine ⟨hrow i hi, ?_⟩
  change i * types.length < dataBuffer.length
  omega

/-- What is left in a table that is opened first, and in a table that is opened again. -/
structure Reopened (env env' : Env) (old t t' : Tab) (types : List FieldType)
    (s s' : Reading) : Prop where
  installed : Installed env types s t
  installed' : Installed env' types s' t'
  shifted : Shifted old.dataBuffer s s'
  length_eq : s.dataBuffer.length = s.recordNumber * types.length
  length_pos : 0 < types.length
  indexed : t.Indexed
  indexed' : t'.Indexed

theorem exists_reopened (hlib : SameLibrary env env') (hold : old.indexColumn = -1)
    (h : openFromMemoryText env new memory = some (true, t)) :
    ∃ t' types s s', openFromMemoryText env' old memory = some (true, t') ∧
      Reopened env env' old t t' types s s' := by
  obtain ⟨typeLine, rest, types, nameLine, rest', hget, htypes, hne, hget'⟩ :=
    lines_of_openFromMemoryText h
  obtain ⟨names, hopen⟩ := openFromMemoryText_eq env new hget htypes hne hget'
  obtain ⟨names', hopen'⟩ := openFromMemoryText_eq env' old hget htypes hne hget'
  rw [h, eq_comm, Option.bind_eq_some_iff] at hopen
  obtain ⟨s, hs, hopen⟩ := hopen
  obtain ⟨t, hinstall, he⟩ := Option.bind_eq_some_iff.mp hopen
  cases he
  obtain ⟨s', hs', hshifted⟩ := (shifted_new old.dataBuffer).addRecords hlib hs
  have hpos : 0 < types.length := List.length_pos_iff.mpr hne
  have hf : types.length < 2 ^ 16 := by
    have hlen := length_of_mapM htypes
    have hle := length_typeTexts_le typeLine
    have hshort := (getLineFromMemory_line hget).1
    unfold lineSize at hshort
    omega
  have hlen : s.dataBuffer.length = s.recordNumber * types.length := by
    have hlen := Reading.length_addRecords hs
    unfold Reading.new at hlen
    dsimp only at hlen
    rw [Nat.zero_mul, Nat.add_zero] at hlen
    exact hlen.trans (Nat.zero_add _)
  obtain ⟨t', hinstall'⟩ := install_behind hshifted hf hpos hlen (by rfl) hinstall env'
    { old with fieldnames := names' }
  refine ⟨t', types, s, s', ?_, ?_⟩
  · rw [hopen', hs', Option.bind_some, hinstall', Option.bind_some]
  · exact ⟨install_eq_some hinstall, install_eq_some hinstall', hshifted, hlen, hpos,
      (install_indexed (by rfl) hinstall).1, (install_indexed (by exact hold) hinstall').1⟩

end Opened

section Cells

variable {env env' : Env} {old t t' : Tab} {types : List FieldType} {s s' : Reading}

theorem setWidth_signExtend (value : BitVec 32) :
    (value.signExtend 64).setWidth 32 = value := by
  ext i hi
  simp only [BitVec.getElem_setWidth, BitVec.getLsbD_signExtend, hi, if_true]
  simp [hi]
  omega

theorem half_relocated (env : Env) (data : FieldData) :
    (relocated env .string data).half = env.address.setWidth 32 + data.half := by
  rw [relocated, if_pos rfl, FieldData.half, BitVec.setWidth_add _ _ (by decide),
    setWidth_signExtend]

theorem Installed.cell_place (ht : Installed env types s t)
    (hlen : s.recordNumber * types.length ≤ s.dataBuffer.length) {i c : ℕ} {type : FieldType}
    (hi : i < s.recordNumber) (htype : types[c]? = some type) :
    t.dataBuffer[i * types.length + c]? =
      some (relocated env type (s.dataBuffer.getD (i * types.length + c) 0)) := by
  have hc := (List.getElem?_eq_some_iff.mp htype).1
  have hlast := row_end_le types.length hi
  refine ht.cell_eq i c type _ hi htype ?_
  rw [List.getElem?_eq_getElem (by omega), List.getD_eq_getElem _ _ (by omega)]

theorem Installed.storedAt_eq (ht : Installed env types s t)
    (hlen : s.recordNumber * types.length ≤ s.dataBuffer.length) {place : ℕ}
    (hplace : place < s.recordNumber * types.length) :
    t.storedAt place = (s.dataBuffer.getD place 0).half := by
  have hpos : 0 < types.length := Nat.pos_of_mul_pos_left (Nat.zero_lt_of_lt hplace)
  have hrow : place / types.length < s.recordNumber := Nat.div_lt_of_lt_mul (by
    rwa [Nat.mul_comm] at hplace)
  have hcolumn := Nat.mod_lt place hpos
  have hcell := ht.cell_place hlen hrow (List.getElem?_eq_getElem hcolumn)
  rw [Nat.div_add_mod'] at hcell
  rw [storedAt, ht.type_eq, List.getD_eq_getElem?_getD, hcell, Option.getD_some, stored,
    ht.type_eq, ht.address_eq, List.getElem?_eq_getElem hcolumn]
  split
  · next hstring =>
    rw [Option.some.inj hstring, half_relocated, BitVec.add_comm, BitVec.add_sub_cancel]
  · next hstring =>
    rw [relocated, if_neg fun h => hstring (congrArg some h)]

theorem Shifted.half_getD {old : List FieldData} (h : Shifted old s s') (place : ℕ) :
    (s'.dataBuffer.getD place 0).half =
      if place < old.length then (old.getD place 0).half
      else (s.dataBuffer.getD (place - old.length) 0).half := by
  have hget (l : List FieldData) : (l.getD place 0).half = (l.map FieldData.half).getD place 0 := by
    have hmap := List.getD_map (l := l) (n := place) (d := 0) FieldData.half
    exact hmap.symm
  rw [hget, h.halves, ← hget]
  split
  · next hlt => rw [List.getD_append _ _ _ _ hlt]
  · next hge => rw [List.getD_append_right _ _ _ _ (by omega)]

theorem Reopened.behind_eq (h : Reopened env env' old t t' types s s') {place : ℕ}
    (hplace : place < s.recordNumber * types.length) :
    behind old t place = (s'.dataBuffer.getD place 0).half := by
  rw [behind, h.shifted.half_getD]
  split
  · rfl
  · rw [h.installed.storedAt_eq h.length_eq.ge (by omega)]

theorem Reopened.length_le' (h : Reopened env env' old t t' types s s') :
    s'.recordNumber * types.length ≤ s'.dataBuffer.length := by
  rw [h.shifted.recordNumber_eq, h.shifted.length_eq, h.length_eq]
  exact Nat.le_add_left _ _

theorem textAt_eq (t : Tab) (value : BitVec 32) :
    t.textAt value =
      if (value.signExtend 64).toNat < t.stringBuffer.length then
        some ((t.stringBuffer.drop (value.signExtend 64).toNat).takeWhile (· ≠ 0))
      else none := by
  rw [textAt, stringValue, BitVec.add_comm, BitVec.add_sub_cancel]

theorem Installed.stringValue_relocated (ht : Installed env types s t) (data : FieldData) :
    t.stringValue (relocated env .string data) = t.textAt data.half := by
  rw [relocated, if_pos rfl, textAt, ht.address_eq]

theorem Reopened.textAt_eq (h : Reopened env env' old t t' types s s') (value : BitVec 32) :
    t'.textAt value = t.textAt value := by
  have hbuffer : t'.stringBuffer = t.stringBuffer := by
    rw [h.installed'.stringBuffer_eq, h.installed.stringBuffer_eq, Reading.texts, Reading.texts,
      h.shifted.stringBuffer_eq]
  rw [Tab.textAt_eq, Tab.textAt_eq, hbuffer]

theorem Reopened.sameValue_iff (h : Reopened env env' old t t' types s s') (type : FieldType)
    (data data' : FieldData) :
    (if type = .string then
        ∃ text, t.stringValue (relocated env type data) = some text ∧
          t'.stringValue (relocated env' type data') = some text
      else (relocated env' type data').half = (relocated env type data).half) ↔
      t.SameMeaning type data.half data'.half := by
  unfold SameMeaning
  split
  · next hstring =>
    subst hstring
    rw [h.installed.stringValue_relocated, h.installed'.stringValue_relocated, h.textAt_eq]
  · next hstring => rw [relocated, relocated, if_neg hstring, if_neg hstring]

theorem Reopened.fieldNumber_eq (h : Reopened env env' old t t' types s s') :
    t'.fieldNumber = t.fieldNumber := by
  rw [h.installed'.fieldNumber_eq, h.installed.fieldNumber_eq]

theorem Reopened.recordNumber_eq (h : Reopened env env' old t t' types s s') :
    t'.recordNumber = t.recordNumber := by
  rw [h.installed'.recordNumber_eq, h.installed.recordNumber_eq, h.shifted.recordNumber_eq]

/-- A place is found in the table that was opened again, if it is one of the places of the larger
buffer. -/
theorem Reopened.computes_admits_iff (h : Reopened env env' old t t' types s s') (r c : ℕ) :
    t'.Computes r c ∧ t'.Admits r c ↔ t.Computes r c ∧ t.position r c ≤
      (BitVec.ofNat 32 (old.dataBuffer.length + t.dataBuffer.length)).toInt := by
  have hlen : t'.dataBuffer.length = old.dataBuffer.length + t.dataBuffer.length := by
    rw [h.installed'.length_eq, h.shifted.length_eq, h.installed.length_eq]
  unfold Computes Admits position
  rw [h.fieldNumber_eq, hlen]
  exact and_congr_right fun _ => and_iff_right (Int.natCast_nonneg r)

theorem Installed.cellAt_position (ht : Installed env types s t)
    (hlen : s.recordNumber * types.length ≤ s.dataBuffer.length) {i c : ℕ} {type : FieldType}
    (hi : i < s.recordNumber) (htype : types[c]? = some type) :
    cellAt t.dataBuffer (t.position i c) =
      some (relocated env type (s.dataBuffer.getD (i * types.length + c) 0)) := by
  rw [position, ht.fieldNumber_eq, ← Int.natCast_mul, ← Int.natCast_add, cellAt_natCast,
    ht.cell_place hlen hi htype]

/-- The cells of the two tables agree exactly when every cell is found in both of them, and means
the same. -/
theorem Reopened.sameTable_iff (h : Reopened env env' old t t' types s s') :
    SameTable t t' ↔ ∀ (r c : ℕ) type, r < t.recordNumber → t.type[c]? = some type →
      (t.Computes r c ∧ t.Admits r c) ∧
        t.position r c ≤
          (BitVec.ofNat 32 (old.dataBuffer.length + t.dataBuffer.length)).toInt ∧
        t.SameMeaning type (t.storedAt (r * t.type.length + c))
          (behind old t (r * t.type.length + c)) := by
  have htype : t'.type = t.type := by rw [h.installed'.type_eq, h.installed.type_eq]
  rw [SameTable, and_iff_right h.fieldNumber_eq, and_iff_right h.recordNumber_eq,
    and_iff_right htype]
  refine forall_congr' fun r => forall_congr' fun c => forall_congr' fun type =>
    imp_congr_right fun hr => imp_congr_right fun hc => ?_
  rw [h.installed.recordNumber_eq] at hr
  rw [h.installed.type_eq] at hc ⊢
  have hr : r < s.recordNumber := by omega
  have hplace : r * types.length + c < s.recordNumber * types.length := by
    have hlt := (List.getElem?_eq_some_iff.mp hc).1
    have hlast := row_end_le types.length hr
    omega
  have hcell := h.installed.cellAt_position h.length_eq.ge hr hc
  have hcell' := h.installed'.cellAt_position h.length_le' (h.shifted.recordNumber_eq.symm ▸ hr) hc
  rw [h.installed.storedAt_eq h.length_eq.ge hplace, h.behind_eq hplace]
  simp only [searchPosition_eq_cell_iff, hcell, hcell', h.computes_admits_iff, ← h.sameValue_iff]
  constructor
  · rintro ⟨_, _, ⟨hfound, ⟨⟩⟩, ⟨⟨-, hmore⟩, ⟨⟩⟩, hvalue⟩
    exact ⟨hfound, hmore, hvalue⟩
  · rintro ⟨hfound, hmore, hvalue⟩
    exact ⟨_, _, ⟨hfound, rfl⟩, ⟨⟨hfound.1, hmore⟩, rfl⟩, hvalue⟩

end Cells

section Lookups

variable {env env' : Env} {old t t' : Tab} {types : List FieldType} {s s' : Reading}

theorem indexKey_injective (t : Tab) : Function.Injective t.indexKey := by
  intro a b hab
  unfold indexKey at hab
  split at hab
  · exact (BitVec.add_right_inj _).mp hab
  · exact hab

theorem Installed.key_eq (ht : Installed env types s t) (hpos : 0 < types.length)
    (hlen : s.recordNumber * types.length ≤ s.dataBuffer.length) {i : ℕ}
    (hi : i < s.recordNumber) :
    t.key i 0 = some (t.indexKey (s.dataBuffer.getD (i * types.length) 0).half) := by
  have hcell := ht.cell_place hlen hi (List.getElem?_eq_getElem hpos)
  rw [Nat.add_zero] at hcell
  rw [key, cell, ht.type_eq, Nat.add_zero, hcell, Option.map_some, indexKey, ht.type_eq,
    ht.address_eq, List.getElem?_eq_getElem hpos]
  split
  · next hstring => rw [Option.some.inj hstring, half_relocated]
  · next hstring => rw [relocated, if_neg fun h => hstring (congrArg some h)]

theorem Installed.firstRow_indexKey (ht : Installed env types s t) (hpos : 0 < types.length)
    (hlen : s.recordNumber * types.length ≤ s.dataBuffer.length) (value : BitVec 32) :
    t.firstRow 0 (t.indexKey value) = (List.range s.recordNumber).find? fun i =>
      (s.dataBuffer.getD (i * types.length) 0).half = value := by
  rw [firstRow, ht.recordNumber_eq, Int.toNat_natCast]
  refine List.find?_congr fun i hi => ?_
  rw [ht.key_eq hpos hlen (List.mem_range.mp hi)]
  exact decide_eq_decide.mpr (Option.some_inj.trans t.indexKey_injective.eq_iff)

theorem Installed.firstWith_eq (ht : Installed env types s t) (hpos : 0 < types.length)
    {value stored : ℕ → BitVec 32}
    (h : ∀ place < s.recordNumber * types.length, value place = stored place) (k : BitVec 32) :
    t.firstWith value k =
      (List.range s.recordNumber).find? fun i => stored (i * types.length) = k := by
  rw [firstWith, ht.recordNumber_eq, Int.toNat_natCast, ht.type_eq]
  refine List.find?_congr fun i hi => ?_
  have hlast := row_end_le types.length (List.mem_range.mp hi)
  rw [h _ (by omega)]

/-- The indices lead to the same records exactly when the first records of all numbers are the
same. -/
theorem Reopened.sameLookups_iff (h : Reopened env env' old t t' types s s') :
    SameLookups t t' ↔ ∀ k, t.firstWith (behind old t) k = t.firstWith t.storedAt k := by
  have hplace : t'.rowPlace = t.rowPlace := by
    funext i
    rw [rowPlace, rowPlace, h.fieldNumber_eq]
  have hinjective : Function.Injective t.rowPlace := by
    intro i j hij
    have hpos := h.length_pos
    rw [rowPlace, rowPlace, h.installed.fieldNumber_eq] at hij
    exact_mod_cast Int.eq_of_mul_eq_mul_right (by omega) hij
  refine forall_congr' fun k => ?_
  rw [h.indexed, h.indexed', hplace, (Option.map_injective hinjective).eq_iff,
    h.installed.firstRow_indexKey h.length_pos h.length_eq.ge,
    h.installed'.firstRow_indexKey h.length_pos h.length_le', h.shifted.recordNumber_eq,
    h.installed.firstWith_eq h.length_pos fun _ => h.behind_eq,
    h.installed.firstWith_eq h.length_pos fun _ => h.installed.storedAt_eq h.length_eq.ge]

end Lookups

/-- A text that is opened in a table that has been used gives the same numbers of records and
columns as in a new table. It gives the same cells and the same records for all keys exactly when
the old cells in front of it make no difference. -/
theorem reopen_iff {env env' : Env} {old t : Tab} {loaded : Bool} {memory : List Byte}
    (hlib : SameLibrary env env') (hold : Reached loaded old)
    (h : openFromMemoryText env new memory = some (true, t)) :
    ∃ t', openFromMemoryText env' old memory = some (true, t') ∧
      t'.recordNumber = t.recordNumber ∧ t'.fieldNumber = t.fieldNumber ∧
      (SameTable t t' ∧ SameLookups t t' ↔ Unmoved old t) := by
  obtain ⟨t', types, s, s', hopen, hre⟩ := exists_reopened hlib hold.indexColumn_eq h
  refine ⟨t', hopen, hre.recordNumber_eq, hre.fieldNumber_eq, ?_⟩
  rw [hre.sameTable_iff, hre.sameLookups_iff]
  exact ⟨fun h => ⟨h.1, h.2⟩, fun h => ⟨h.cells, h.keys⟩⟩

/-- A text with the numbers two and five that is opened twice. -/
theorem reopen_iff_same :
    let env : Env := ⟨fun text => BitVec.ofNat 32 ((text.getD 0 0x30).toNat - 0x30), fun _ => 0,
      4096, fun _ => 0⟩
    let text : List Byte := [0x49, 0x4E, 0x54, 0x0A, 0x6E, 0x0A, 0x32, 0x0A, 0x35]
    let t : Tab := ⟨[.int], 2, 1, [2, 5], [[0x6E]], 4096, [0], 1, [(2, 0), (5, 1)], -1⟩
    openFromMemory env new text = some (true, t) ∧
      ∃ t', openFromMemoryText env t text = some (true, t') ∧
        t'.dataBuffer = [2, 5, 2, 5] ∧ SameTable t t' ∧ SameLookups t t' := by
  intro env text t
  have hopen : openFromMemory env new text = some (true, t) := by decide +kernel
  have h : openFromMemoryText env new text = some (true, t) := by decide +kernel
  have hagain : (openFromMemoryText env t text).map (·.2.dataBuffer) = some [2, 5, 2, 5] := by
    decide +kernel
  obtain ⟨t', hopen', -, -, hiff⟩ := reopen_iff ⟨rfl, rfl⟩ (.opened env _ .new hopen) h
  rw [hopen'] at hagain
  have hsame : ∀ i < 2, behind t t i = t.storedAt i := by decide +kernel
  have hfound : ∀ i < 2, (t.Computes (i : ℕ) (0 : ℕ) ∧ t.Admits (i : ℕ) (0 : ℕ)) ∧
      t.position (i : ℕ) (0 : ℕ) ≤ (BitVec.ofNat 32 (2 + 2)).toInt := by decide +kernel
  refine ⟨hopen, t', hopen', Option.some.inj hagain, hiff.mpr ⟨?_, fun k => ?_⟩⟩
  swap
  · refine List.find?_congr fun i hi => ?_
    change decide (behind t t (i * 1) = k) = decide (t.storedAt (i * 1) = k)
    rw [Nat.mul_one, hsame i (List.mem_range.mp hi)]
  intro r c type hr hc
  obtain ⟨hlt, rfl⟩ := List.getElem?_eq_some_iff.mp hc
  obtain rfl : c = 0 := Nat.lt_one_iff.mp hlt
  have hr : r < 2 := Int.ofNat_lt.mp hr
  have hplace : r * t.type.length + 0 = r := Nat.mul_one r
  refine ⟨(hfound r hr).1, (hfound r hr).2, ?_⟩
  rw [hplace, SameMeaning, if_neg FieldType.noConfusion]
  exact hsame r hr

/-- A table with the number one, in which a text with the number two is opened: its only record is
the old one, and is found by the old key. -/
theorem reopen_keeps_old_cells :
    let env : Env := ⟨fun text => BitVec.ofNat 32 ((text.getD 0 0x30).toNat - 0x30), fun _ => 0,
      4096, fun _ => 0⟩
    let old : Tab := ⟨[.int], 1, 1, [1], [[0x6E]], 4096, [0], 1, [(1, 0)], -1⟩
    let t : Tab := ⟨[.int], 1, 1, [2], [[0x6E]], 4096, [0], 1, [(2, 0)], -1⟩
    let t' : Tab := ⟨[.int], 1, 1, [1, 2], [[0x6E]], 4096, [0], 1, [(1, 0)], -1⟩
    openFromMemoryText env new [0x49, 0x4E, 0x54, 0x0A, 0x6E, 0x0A, 0x31] = some (true, old) ∧
      openFromMemoryText env new [0x49, 0x4E, 0x54, 0x0A, 0x6E, 0x0A, 0x32] = some (true, t) ∧
      openFromMemoryText env old [0x49, 0x4E, 0x54, 0x0A, 0x6E, 0x0A, 0x32] = some (true, t') ∧
      t.searchPosition 0 0 = some (some 2) ∧ t'.searchPosition 0 0 = some (some 1) ∧
      t.searchIndexEqual 2 = some 0 ∧ t'.searchIndexEqual 2 = none := by
  decide +kernel

end Plain.Tab
