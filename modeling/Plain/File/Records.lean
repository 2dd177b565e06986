import Mathlib.Data.List.GetD
import Plain.File.Lines
import Plain.Foundation.Blocks

/-! # The records of a text

While records are read, every cell is encoded: numbers by their values, texts by the place
they have in the block of strings. Texts are added at the end of the block, so what was
encoded stays so.
-/

namespace Plain.Tab

def cells (line : List Byte) : List (List Byte) := line.splitOnP (· == tab)

theorem cells_ne_nil (line : List Byte) : cells line ≠ [] := List.splitOnP_ne_nil _ _

/-- The cells of a record with the types of their columns. Missing cells are empty. -/
def row (types : List FieldType) (line : List Byte) : List (FieldType × List Byte) :=
  types.zip (cells line ++ List.replicate (types.length - (cells line).length) [])

/-- A line that is neither empty nor a comment and has a first cell. -/
def isRecord (line : List Byte) : Bool :=
  line.head? ≠ some 0x23 ∧ line ≠ [] ∧ (cells line).head? ≠ some []

theorem length_row (types : List FieldType) (line : List Byte) :
    (row types line).length = types.length := by
  unfold row
  rw [List.length_zip, List.length_append, List.length_replicate]
  omega

theorem getElem?_row {types : List FieldType} {line : List Byte} {c : ℕ} {type : FieldType}
    (h : types[c]? = some type) :
    (row types line)[c]? = some (type, (cells line).getD c []) := by
  have hc := (List.getElem?_eq_some_iff.mp h).1
  rw [row, List.getElem?_zip_eq_some]
  refine ⟨h, ?_⟩
  by_cases hcell : c < (cells line).length
  · rw [List.getElem?_append_left hcell, List.getElem?_eq_getElem hcell, List.getD_eq_getElem]
  · rw [List.getElem?_append_right (by omega), List.getElem?_replicate, if_pos (by omega),
      List.getD_eq_default _ _ (by omega)]

theorem flatten_cells (line : List Byte) : (cells line).flatten = line.filter (!· == tab) :=
  flatten_splitOnP _ line

theorem notMem_of_mem_row {types : List FieldType} {line : List Byte} (hline : 0 ∉ line)
    {cell : FieldType × List Byte} (h : cell ∈ row types line) : 0 ∉ cell.2 := by
  have hmem := (List.of_mem_zip h).2
  rcases List.mem_append.mp hmem with hcell | hpad
  · intro hzero
    have hflat : (0 : Byte) ∈ (cells line).flatten := List.mem_flatten.mpr ⟨_, hcell, hzero⟩
    rw [flatten_cells] at hflat
    exact hline (List.mem_of_mem_filter hflat)
  · rw [List.eq_of_mem_replicate hpad]
    exact List.not_mem_nil

/-- The bytes that texts take in the block of strings, each with its terminator. -/
def textSize (cells : List (FieldType × List Byte)) : ℕ :=
  (cells.map fun cell => if cell.1 = .string then cell.2.length + 1 else 0).sum

def rowBound (types : List FieldType) : ℕ :=
  if .string ∈ types then lineSize + types.length else 0

theorem textSize_zip_le (types : List FieldType) (texts : List (List Byte)) :
    textSize (types.zip texts) ≤ texts.flatten.length + types.length := by
  induction types generalizing texts with
  | nil => exact Nat.zero_le _
  | cons type types ih =>
    cases texts with
    | nil => exact Nat.zero_le _
    | cons text texts =>
      have hle := ih texts
      unfold textSize at hle ⊢
      simp only [List.zip_cons_cons, List.map_cons, List.sum_cons, List.flatten_cons,
        List.length_append, List.length_cons]
      split <;> omega

theorem textSize_of_notMem {types : List FieldType} (h : .string ∉ types)
    (texts : List (List Byte)) : textSize (types.zip texts) = 0 := by
  induction types generalizing texts with
  | nil => rfl
  | cons type types ih =>
    cases texts with
    | nil => rfl
    | cons text texts =>
      rw [List.mem_cons, not_or] at h
      have hrest := ih h.2 texts
      unfold textSize at hrest ⊢
      rw [List.zip_cons_cons, List.map_cons, List.sum_cons, hrest, if_neg (Ne.symm h.1)]

theorem textSize_row_le (types : List FieldType) {line : List Byte}
    (hline : line.length < lineSize) : textSize (row types line) ≤ rowBound types := by
  unfold rowBound
  split
  · have hcells : (cells line).flatten.length ≤ line.length := by
      rw [flatten_cells]
      exact List.length_filter_le _ _
    have hrow := textSize_zip_le types
      (cells line ++ List.replicate (types.length - (cells line).length) [])
    simp only [List.flatten_append, List.flatten_replicate_nil, List.append_nil] at hrow
    unfold row
    omega
  · rename_i hstring
    exact (textSize_of_notMem hstring _).le

section Encoding

variable (env : Env)

/-- A cell that is stored but not relocated: a number, or one more than the place of a text
among the texts. -/
def Encodes (texts : List (List Byte × ℕ)) (cell : FieldType × List Byte) (data : FieldData) :
    Prop :=
  match cell.1 with
  | .int => data.half = env.atoi cell.2
  | .float => data.half = env.atof cell.2
  | .string => ∃ (k : ℕ) (place : ℕ), texts[k]? = some (cell.2, place) ∧
      data.half = BitVec.ofNat 32 (place + 1)

@[simp] theorem half_ofHalf (unset value : BitVec 32) :
    (FieldData.ofHalf unset value).half = value :=
  BitVec.setWidth_append_eq_right

variable {env}

theorem Encodes.append {texts : List (List Byte × ℕ)} {cell : FieldType × List Byte}
    {data : FieldData} (h : Encodes env texts cell data) (more : List (List Byte × ℕ)) :
    Encodes env (texts ++ more) cell data := by
  unfold Encodes at h ⊢
  cases htype : cell.1 with
  | int | float =>
    rw [htype] at h
    exact h
  | string =>
    rw [htype] at h
    obtain ⟨k, place, hk, hdata⟩ := h
    refine ⟨k, place, ?_, hdata⟩
    rw [List.getElem?_append_left (List.getElem?_eq_some_iff.mp hk).1, hk]

end Encoding

namespace Reading

def texts (s : Reading) : List (List Byte) := s.stringBuffer.map Prod.fst

/-- The cells that have been read are encoded. The map leads to the places of the texts, and
each place is the length of the texts in front of it. -/
structure Represents (env : Env) (s : Reading) (cells : List (FieldType × List Byte)) :
    Prop where
  size_eq : s.stringBufferSize = (terminated 0 s.texts).length
  place_eq : ∀ (k : ℕ) text place, s.stringBuffer[k]? = some (text, place) →
    place = (terminated 0 (s.texts.take k)).length
  found : ∀ text (k : ℕ), s.mapStringBuffer.lookup text = some k →
    ∃ place, s.stringBuffer[k]? = some (text, place)
  notMem : ∀ text ∈ s.texts, 0 ∉ text
  encodes : List.Forall₂ (Encodes env s.stringBuffer) cells s.dataBuffer

variable {env : Env} {s : Reading} {known : List (FieldType × List Byte)}

theorem represents_new (env : Env) : (new []).Represents env [] where
  size_eq := rfl
  place_eq := by simp [new]
  found := by simp [new]
  notMem := by simp [new, texts]
  encodes := .nil

theorem Represents.pushBack (h : s.Represents env known) {cell : FieldType × List Byte}
    {value : BitVec 32}
    (hvalue : ∀ unset, Encodes env s.stringBuffer cell (FieldData.ofHalf unset value)) :
    (s.pushBack env value).Represents env (known ++ [cell]) where
  size_eq := h.size_eq
  place_eq := h.place_eq
  found := h.found
  notMem := h.notMem
  encodes := List.rel_append h.encodes (.cons (hvalue _) .nil)

theorem Represents.place_concat (h : s.Represents env known) {text text' : List Byte}
    {k place : ℕ}
    (hk : (s.stringBuffer ++ [(text, s.stringBufferSize)])[k]? = some (text', place)) :
    place = (terminated (0 : Byte) (((s.stringBuffer ++ [(text, s.stringBufferSize)]).map
      Prod.fst).take k)).length := by
  rcases Nat.lt_trichotomy k s.stringBuffer.length with hlt | rfl | hgt
  · rw [List.getElem?_append_left hlt] at hk
    rw [List.map_append, List.take_append_of_le_length (by simpa using hlt.le)]
    exact h.place_eq k text' place hk
  · rw [List.getElem?_concat_length, Option.some.injEq, Prod.mk.injEq] at hk
    rw [List.map_append, List.take_append_of_le_length (by simp),
      List.take_of_length_le (by simp), ← hk.2]
    exact h.size_eq
  · have hle : (s.stringBuffer ++ [(text, s.stringBufferSize)]).length ≤ k := by
      rw [List.length_append, List.length_singleton]
      omega
    rw [List.getElem?_eq_none hle] at hk
    cases hk

theorem Represents.addText (h : s.Represents env known) {text : List Byte} (hz : 0 ∉ text) :
    Represents env { s with
      stringBuffer := s.stringBuffer ++ [(text, s.stringBufferSize)]
      mapStringBuffer := (text, s.stringBuffer.length) :: s.mapStringBuffer
      stringBufferSize := s.stringBufferSize + (text.length + 1) } known where
  size_eq := by
    change _ = (terminated (0 : Byte) ((s.stringBuffer ++ [(text, _)]).map Prod.fst)).length
    rw [List.map_append, List.map_singleton, terminated_concat, List.length_append,
      List.length_append, h.size_eq]
    rfl
  place_eq _ _ _ hk := h.place_concat hk
  found := by
    intro text' k hk
    rw [List.lookup_cons] at hk
    split at hk
    · rename_i heq
      cases hk
      rw [beq_iff_eq] at heq
      exact ⟨s.stringBufferSize, by rw [List.getElem?_concat_length, heq]⟩
    · obtain ⟨place, hplace⟩ := h.found text' k hk
      refine ⟨place, ?_⟩
      rw [List.getElem?_append_left (List.getElem?_eq_some_iff.mp hplace).1, hplace]
  notMem := by
    intro text' hmem
    change text' ∈ (s.stringBuffer ++ [_]).map _ at hmem
    rw [List.map_append, List.mem_append] at hmem
    rcases hmem with hold | hnew
    · exact h.notMem text' hold
    · rw [List.map_singleton, List.mem_singleton] at hnew
      rwa [hnew]
  encodes := h.encodes.imp fun _ _ he => he.append _

theorem Represents.addCell (h : s.Represents env known) {cell : FieldType × List Byte}
    (hz : 0 ∉ cell.2) : (s.addCell env cell).Represents env (known ++ [cell]) := by
  unfold Reading.addCell
  cases htype : cell.1 with
  | int | float =>
    apply h.pushBack
    intro unset
    unfold Encodes
    rw [htype]
    exact half_ofHalf _ _
  | string =>
    cases hfind : s.mapStringBuffer.lookup cell.2 with
    | none =>
      apply (h.addText hz).pushBack
      intro unset
      unfold Encodes
      rw [htype]
      exact ⟨s.stringBuffer.length, s.stringBufferSize, List.getElem?_concat_length,
        half_ofHalf _ _⟩
    | some k =>
      obtain ⟨place, hplace⟩ := h.found _ _ hfind
      apply h.pushBack
      intro unset
      unfold Encodes
      rw [htype]
      refine ⟨k, place, hplace, ?_⟩
      rw [half_ofHalf, List.getD_eq_getElem?_getD, hplace]
      rfl

theorem addCell_size_le (s : Reading) (cell : FieldType × List Byte) :
    (s.addCell env cell).stringBufferSize ≤
      s.stringBufferSize + if cell.1 = .string then cell.2.length + 1 else 0 := by
  unfold addCell
  cases cell.1 with
  | int | float => exact Nat.le_add_right _ _
  | string =>
    dsimp only
    split
    · exact le_rfl
    · exact Nat.le_add_right _ _

theorem addCell_recordNumber (s : Reading) (cell : FieldType × List Byte) :
    (s.addCell env cell).recordNumber = s.recordNumber := by
  unfold addCell
  split
  · rfl
  · rfl
  · split <;> rfl

theorem length_addCell (s : Reading) (cell : FieldType × List Byte) :
    (s.addCell env cell).dataBuffer.length = s.dataBuffer.length + 1 := by
  unfold addCell
  split
  · exact List.length_append
  · exact List.length_append
  · split <;> exact List.length_append

theorem Represents.addCells (h : s.Represents env known) {row : List (FieldType × List Byte)}
    (hz : ∀ cell ∈ row, 0 ∉ cell.2) :
    (row.foldl (Reading.addCell env) s).Represents env (known ++ row) := by
  induction row generalizing s known with
  | nil => rwa [List.append_nil]
  | cons cell row ih =>
    have hcell := h.addCell (hz cell List.mem_cons_self)
    have hrow := ih hcell fun c hc => hz c (List.mem_cons_of_mem _ hc)
    rwa [List.append_assoc] at hrow

theorem addCells_size_le (s : Reading) (row : List (FieldType × List Byte)) :
    (row.foldl (addCell env) s).stringBufferSize ≤ s.stringBufferSize + textSize row := by
  induction row generalizing s with
  | nil => exact le_rfl
  | cons cell row ih =>
    have hcell : (s.addCell env cell).stringBufferSize ≤ _ := addCell_size_le s cell
    have hrow := ih (s.addCell env cell)
    unfold textSize at hrow ⊢
    rw [List.foldl_cons, List.map_cons, List.sum_cons]
    omega

theorem addCells_recordNumber (s : Reading) (row : List (FieldType × List Byte)) :
    (row.foldl (addCell env) s).recordNumber = s.recordNumber := by
  induction row generalizing s with
  | nil => rfl
  | cons cell row ih => rw [List.foldl_cons, ih, addCell_recordNumber]

theorem length_addCells (s : Reading) (row : List (FieldType × List Byte)) :
    (row.foldl (addCell env) s).dataBuffer.length = s.dataBuffer.length + row.length := by
  induction row generalizing s with
  | nil => rfl
  | cons cell row ih =>
    rw [List.foldl_cons, ih, length_addCell, List.length_cons]
    omega

theorem addRecord_eq {types : List FieldType} (s : Reading) (line : List Byte) :
    s.addRecord env types line = some (if isRecord line then
      { (row types line).foldl (addCell env) s with recordNumber := s.recordNumber + 1 }
      else s) := by
  have hitems : itemsAt tab false line = cells line := List.filter_eq_self.mpr (by simp)
  have hresult := explode_eq_items tab false line
  rw [hitems] at hresult
  unfold addRecord isRecord
  by_cases hcomment : line.head? = some 0x23
  · rw [if_pos hcomment, if_neg (by rw [decide_eq_true_eq]; exact fun h => h.1 hcomment)]
    rfl
  rw [if_neg hcomment, hresult, Option.bind_eq_bind, Option.bind_some]
  by_cases hempty : line = []
  · rw [if_pos hempty, if_pos rfl, if_neg (by rw [decide_eq_true_eq]; exact fun h => h.2.1 hempty)]
    rfl
  rw [if_neg hempty, if_neg (cells_ne_nil line)]
  obtain ⟨cell, more, hcells⟩ := List.exists_cons_of_ne_nil (cells_ne_nil line)
  dsimp only
  have hget : (cells line ++ List.replicate (types.length - (cells line).length) []).getD 0 [] =
      cell := by
    rw [hcells]
    rfl
  rw [hget]
  by_cases hfirst : cell = []
  · rw [if_pos hfirst, if_neg]
    · rfl
    · rw [decide_eq_true_eq, hcells, hfirst]
      exact fun h => h.2.2 rfl
  · rw [if_neg hfirst, if_pos]
    · change some { (row types line).foldl (addCell env) s with
        recordNumber := ((row types line).foldl (addCell env) s).recordNumber + 1 } = _
      rw [addCells_recordNumber]
    · rw [decide_eq_true_eq, hcells]
      exact ⟨hcomment, hempty, fun h => hfirst (Option.some.inj h)⟩

/-- Behind the cells of an earlier table, every record has all its cells. -/
theorem length_addRecords {types : List FieldType} {lines : List (List Byte)} {s s' : Reading}
    (h : lines.foldlM (Reading.addRecord env types) s = some s') :
    s'.dataBuffer.length + s.recordNumber * types.length =
      s.dataBuffer.length + s'.recordNumber * types.length := by
  induction lines generalizing s with
  | nil =>
    obtain rfl := Option.some.inj h
    rfl
  | cons line lines ih =>
    rw [List.foldlM_cons, addRecord_eq, Option.bind_eq_bind, Option.bind_some] at h
    have hrest := ih h
    split at hrest
    · dsimp only at hrest
      rw [length_addCells, length_row, Nat.succ_mul] at hrest
      omega
    · exact hrest

/-- All lines: the records add their cells in order. -/
theorem Represents.addRecords (h : s.Represents env known) (types : List FieldType)
    {lines : List (List Byte)} (hlines : ∀ line ∈ lines, line.length < lineSize ∧ 0 ∉ line) :
    ∃ s', lines.foldlM (Reading.addRecord env types) s = some s' ∧
      s'.Represents env (known ++ (lines.filter isRecord).flatMap (row types)) ∧
      s'.recordNumber = s.recordNumber + (lines.filter isRecord).length ∧
      s'.stringBufferSize ≤
        s.stringBufferSize + (lines.filter isRecord).length * rowBound types := by
  induction lines generalizing s known with
  | nil => exact ⟨s, rfl, by simpa using h, rfl, Nat.le_add_right _ _⟩
  | cons line lines ih =>
    have hline := hlines line List.mem_cons_self
    have hrest := fun l hl => hlines l (List.mem_cons_of_mem line hl)
    rw [List.foldlM_cons, addRecord_eq, Option.bind_eq_bind, Option.bind_some]
    cases hrec : isRecord line with
    | false =>
      rw [List.filter_cons_of_neg (by simp [hrec]), if_neg Bool.false_ne_true]
      exact ih h hrest
    | true =>
      rw [List.filter_cons_of_pos hrec, if_pos rfl]
      have hz : ∀ cell ∈ row types line, 0 ∉ cell.2 :=
        fun cell hcell => notMem_of_mem_row hline.2 hcell
      have hadd := h.addCells hz
      have hsize : ((row types line).foldl (Reading.addCell env) s).stringBufferSize ≤ _ :=
        addCells_size_le s _
      have hbound := textSize_row_le types hline.1
      obtain ⟨s', hfold, hrep, hnum, hle⟩ := ih (s := { (row types line).foldl
        (Reading.addCell env) s with recordNumber := s.recordNumber + 1 })
        ⟨hadd.size_eq, hadd.place_eq, hadd.found, hadd.notMem, hadd.encodes⟩ hrest
      refine ⟨s', hfold, ?_, ?_, ?_⟩
      · rwa [List.flatMap_cons, ← List.append_assoc]
      · rw [hnum, List.length_cons]
        change s.recordNumber + 1 + _ = _
        omega
      · rw [List.length_cons, Nat.succ_mul]
        change _ ≤ ((row types line).foldl (Reading.addCell env) s).stringBufferSize + _ at hle
        omega

end Reading

end Plain.Tab
