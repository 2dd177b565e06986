import Mathlib.Algebra.Group.Nat.Defs
import Mathlib.Algebra.Order.Ring.Int
import Plain.File.Ini

/-! # Values of an ini file

A file is a list of blocks: a section line, and the key lines up to the next one. The value of a
key in a section is that of the first key line in any block of the section. The sets of values
that are built from a file have the values of all blocks, but a section leads to its first block
only.
-/

namespace Plain.Ini

section Blocks

inductive Line where
  | header (name : List Byte)
  | pair (key value : List Byte)
  | other
  deriving DecidableEq, Repr

def Line.parse (buffer : List Byte) : Line :=
  match parsesection buffer with
  | some name => .header name
  | none =>
      match parsekey buffer with
      | some (key, value) => .pair key value
      | none => .other

/-- A line without its end, its comment and the blanks at its end. -/
def cleaned (line : List Byte) : List Byte :=
  ((withoutEnd (cString line)).takeWhile (· ≠ note)).rdropWhile isBlank

def documentLines (text : List Byte) : List Line :=
  (fileLines text).map fun line => .parse (cleaned line)

abbrev Block := List Byte × List (List Byte × List Byte)

def addToBlocks (blocks : List Block) : Line → List Block
  | .header name => blocks ++ [(name, [])]
  | .pair key value =>
      blocks.modify (blocks.length - 1) fun block => (block.1, block.2 ++ [(key, value)])
  | .other => blocks

def blocks (text : List Byte) : List Block := (documentLines text).foldl addToBlocks []

/-- The value of the first key line in any block of a section. -/
def reference (text name key : List Byte) : Option (List Byte) :=
  (((blocks text).filter fun block => block.1 = name).flatMap Prod.snd).lookup key

/-- The value of the first key line in the first block of a section. -/
def firstBlockValue (text name key : List Byte) : Option (List Byte) :=
  ((blocks text).find? fun block => block.1 = name).bind fun block => block.2.lookup key

/-- There is a section line in front of every key line. -/
def Headed : Bool → List Line → Prop
  | _, [] => True
  | _, .header _ :: lines => Headed true lines
  | seen, .pair _ _ :: lines => seen = true ∧ Headed seen lines
  | seen, .other :: lines => Headed seen lines

def Line.stored : Line → ℕ
  | .pair _ value => value.length + 1
  | _ => 0

end Blocks

section Represents

variable {s s' : Ini} {bs : List Block} {more : List Byte}

/-- What the members of an ini file stand for: the sets of values are the blocks, and a section
leads to its first block. The buffer ends with a zero, and its size is a power of two. -/
structure Represents (s : Ini) (bs : List Block) : Prop where
  length_eq : s.valuesets.length = bs.length
  section_eq : ∀ name, s.sectiondata.lookup name = (bs.map Prod.fst).findIdx? (· = name)
  current_eq : s.currentSection = if bs = [] then none else some (bs.length - 1)
  value_eq : ∀ (i : ℕ) block values, bs[i]? = some block → s.valuesets[i]? = some values →
    ∀ key, (values.lookup key).map s.getBufferstring = (block.2.lookup key).map some
  ends : s.buffer = [] ∨ s.buffer.getLast? = some 0
  size_lt : s.buffer.length < s.bufferlengthMax
  size_eq : ∃ m : ℕ, 10 ≤ m ∧ m ≤ 30 ∧ s.bufferlengthMax = 2 ^ m

theorem represents_new : new.Represents [] where
  length_eq := rfl
  section_eq _ := rfl
  current_eq := rfl
  value_eq := by simp
  ends := Or.inl rfl
  size_lt := by decide
  size_eq := ⟨10, by decide, by decide, by decide⟩

theorem Represents.length_lt (h : s.Represents bs) : s.buffer.length < 2 ^ 30 := by
  obtain ⟨m, -, hm, hmax⟩ := h.size_eq
  have hpow : (2 : ℤ) ^ m ≤ 2 ^ 30 := pow_le_pow_right₀ (by decide) hm
  have hsize := h.size_lt
  omega

theorem lookup_singleton {α : Type*} (key : List Byte) (value : α) (k : List Byte) :
    [(key, value)].lookup k = if k = key then some value else none := by
  rw [List.lookup_cons]
  by_cases hk : k = key
  · rw [if_pos hk, beq_iff_eq.mpr hk]
  · rw [if_neg hk, beq_false_of_ne hk]
    rfl

theorem lookup_insert (map : List (List Byte × ℕ)) (key : List Byte) (value : ℕ)
    (k : List Byte) :
    (insert map key value).lookup k =
      (map.lookup k).or (if k = key then some value else none) := by
  unfold insert
  split
  · next hsome =>
    by_cases hk : k = key
    · rw [hk, Option.or_of_isSome hsome]
    · rw [if_neg hk, Option.or_none]
  · rw [List.lookup_append, lookup_singleton]

theorem getBufferstring_append (hends : s.buffer = [] ∨ s.buffer.getLast? = some 0)
    (hbuffer : s'.buffer = s.buffer ++ more) {position : ℕ} {text : List Byte}
    (h : s.getBufferstring position = some text) : s'.getBufferstring position = some text := by
  unfold getBufferstring at h ⊢
  split at h
  · cases h
  · next hlt =>
    have hmem : 0 ∈ s.buffer.drop position := by
      rcases hends with hnil | hlast
      · rw [hnil] at hlt
        exact absurd (Nat.zero_le _) hlt
      · obtain ⟨front, hfront⟩ := List.getLast?_eq_some_iff.mp hlast
        rw [hfront, List.length_append, List.length_singleton] at hlt
        rw [hfront, List.drop_append_of_le_length (by omega)]
        exact List.mem_append_right _ List.mem_cons_self
    rw [hbuffer, List.length_append, if_neg (by omega),
      List.drop_append_of_le_length (by omega), cString_append_of_mem hmem, h]

theorem map_getBufferstring_append (hends : s.buffer = [] ∨ s.buffer.getLast? = some 0)
    (hbuffer : s'.buffer = s.buffer ++ more) {position : Option ℕ} {value : Option (List Byte)}
    (h : position.map s.getBufferstring = value.map some) :
    position.map s'.getBufferstring = value.map some := by
  cases position with
  | none => exact h
  | some position =>
    cases value with
    | none => cases h
    | some value =>
      exact congrArg some (getBufferstring_append hends hbuffer (Option.some.inj h))

end Represents

section Line

theorem rdropWhile_cons {α : Type*} (p : α → Bool) (a : α) (l : List α) :
    (a :: l).rdropWhile p =
      if l.rdropWhile p = [] then if p a then [] else [a] else a :: l.rdropWhile p := by
  unfold List.rdropWhile
  rw [List.reverse_cons, List.dropWhile_append]
  by_cases h : (l.reverse.dropWhile p).isEmpty
  · rw [if_pos h, if_pos (by simpa using h), List.dropWhile_cons]
    split <;> rfl
  · rw [if_neg h, if_neg (by simpa using h), List.reverse_append]
    rfl

theorem parse_blank {a : Byte} (ha : isBlank a) : Line.parse [a] = .other := by
  revert a
  decide

theorem parse_trimstring {line buffer : List Byte} (h : trimstring (cString line) = some buffer) :
    Line.parse buffer = .parse (cleaned line) := by
  rw [trimstring_eq] at h
  unfold cleaned
  split at h
  · next hnil =>
    rw [hnil, ← Option.some.inj h]
    rfl
  · split at h
    · cases h
    · next a rest htake =>
      rw [htake, ← Option.some.inj h, rdropWhile_cons]
      split
      · next hrest =>
        rw [hrest]
        split
        · next hblank => exact parse_blank hblank
        · rfl
      · rfl

theorem sublist_of_parsekey {buffer key value : List Byte}
    (h : parsekey buffer = some (key, value)) : value.Sublist buffer := by
  unfold parsekey at h
  split at h
  · cases h
    exact (List.drop_sublist _ _).trans (List.dropWhile_sublist _)
  · cases h

theorem cleaned_sublist (line : List Byte) : (cleaned line).Sublist (cString line) := by
  unfold cleaned
  refine (List.rdropWhile_prefix _ _).sublist.trans ((List.takeWhile_sublist _).trans ?_)
  unfold withoutEnd
  split
  · exact List.dropLast_sublist _
  · exact List.Sublist.refl _

theorem value_sublist {line key value : List Byte}
    (h : Line.parse (cleaned line) = .pair key value) : value.Sublist (cString line) := by
  unfold Line.parse at h
  split at h
  · cases h
  · split at h
    · next _ _ _ hkey =>
      cases h
      exact (sublist_of_parsekey hkey).trans (cleaned_sublist line)
    · cases h

end Line

section Step

variable {s s' : Ini} {bs : List Block} {more : List Byte}

theorem addBufferstring_spec (h : s.Represents bs) {value : List Byte}
    (hvalue : value.length < lineMax) :
    (2 ^ 30 ≤ s.buffer.length + (value.length + 1) ∧ s.addBufferstring value = none) ∨
      (s.buffer.length + (value.length + 1) < 2 ^ 30 ∧
        ∃ m : ℕ, 10 ≤ m ∧ m ≤ 30 ∧ (s.buffer.length + (value.length + 1) : ℤ) < 2 ^ m ∧
          s.addBufferstring value = some (s.buffer.length,
            { s with buffer := s.buffer ++ value ++ [0], bufferlengthMax := 2 ^ m })) := by
  obtain ⟨m, hm, hm', hmax⟩ := h.size_eq
  have hlt := h.size_lt
  have hline : lineMax = 512 := rfl
  have hpow : (2 : ℤ) ^ 10 ≤ 2 ^ m := pow_le_pow_right₀ (by decide) hm
  have hpow' : (2 : ℤ) ^ m ≤ 2 ^ 30 := pow_le_pow_right₀ (by decide) hm'
  unfold addBufferstring
  rw [hmax] at hlt ⊢
  by_cases hfull : (s.buffer.length + (value.length + 1) : ℤ) ≥ 2 ^ m
  · rw [if_pos hfull, ← pow_succ]
    by_cases hm30 : m = 30
    · subst hm30
      exact Or.inl ⟨by omega, rfl⟩
    · -- A line is shorter than the buffer, so that twice the size is enough for it.
      have hpow'' : (2 : ℤ) ^ (m + 1) ≤ 2 ^ 30 := pow_le_pow_right₀ (by decide) (by omega)
      have hdouble : (2 : ℤ) ^ (m + 1) = 2 ^ m * 2 := pow_succ _ _
      refine Or.inr ⟨by omega, m + 1, by omega, by omega, by omega, ?_⟩
      rw [int32_eq_some (by omega) (by omega), Option.bind_eq_bind, Option.bind_some]
      beta_reduce
      rw [guard, if_pos (by omega)]
      rfl
  · refine Or.inr ⟨by omega, m, hm, hm', by omega, ?_⟩
    rw [if_neg hfull, Option.bind_eq_bind, Option.bind_some]
    beta_reduce
    rw [guard, if_pos (by omega)]
    rfl

theorem represents_header (h : s.Represents bs) (name : List Byte) :
    { s with
      sectiondata := insert s.sectiondata name s.valuesets.length
      valuesets := s.valuesets ++ [[]]
      currentSection := some s.valuesets.length : Ini }.Represents (bs ++ [(name, [])]) where
  length_eq := by simp [h.length_eq]
  section_eq k := by
    rw [lookup_insert, h.section_eq, h.length_eq, List.map_append, List.findIdx?_append,
      List.length_map]
    congr 1
    by_cases hk : k = name <;> simp [hk, eq_comm]
  current_eq := by simp [h.length_eq]
  value_eq i block values hblock hvalues key := by
    rcases Nat.lt_trichotomy i bs.length with hlt | heq | hgt
    · rw [List.getElem?_append_left hlt] at hblock
      rw [List.getElem?_append_left (h.length_eq ▸ hlt)] at hvalues
      exact h.value_eq i block values hblock hvalues key
    · rw [heq, List.getElem?_concat_length] at hblock
      rw [heq, ← h.length_eq, List.getElem?_concat_length] at hvalues
      cases hblock
      cases hvalues
      rfl
    · rw [List.getElem?_eq_none (by rw [List.length_append]; exact hgt)] at hblock
      cases hblock
  ends := h.ends
  size_lt := h.size_lt
  size_eq := h.size_eq

theorem getBufferstring_new {value : List Byte} (hzero : 0 ∉ value)
    (hbuffer : s.buffer = more ++ value ++ [0]) :
    s.getBufferstring more.length = some value := by
  unfold getBufferstring
  rw [hbuffer, List.append_assoc, if_neg (by simp), List.drop_left, cString_append hzero]

theorem map_fst_addToBlocks_pair (bs : List Block) (key value : List Byte) :
    (addToBlocks bs (.pair key value)).map Prod.fst = bs.map Prod.fst := by
  refine List.ext_getElem? fun i => ?_
  rw [addToBlocks, List.getElem?_map, List.getElem?_map, List.getElem?_modify]
  cases bs[i]? with
  | none => rfl
  | some block => by_cases hi : bs.length - 1 = i <;> simp [hi]

theorem lookup_addToBlocks_pair (h : s.Represents bs) {key value : List Byte} (hzero : 0 ∉ value)
    (hbuffer : s'.buffer = s.buffer ++ value ++ [0]) {i : ℕ} {block : Block}
    {values : List (List Byte × ℕ)} (hblock : (addToBlocks bs (.pair key value))[i]? = some block)
    (hvalues : (s.valuesets.modify (bs.length - 1) fun values =>
      insert values key s.buffer.length)[i]? = some values) (k : List Byte) :
    (values.lookup k).map s'.getBufferstring = (block.2.lookup k).map some := by
  rw [addToBlocks, List.getElem?_modify] at hblock
  rw [List.getElem?_modify] at hvalues
  obtain ⟨block, hblock', rfl⟩ := Option.map_eq_some_iff.mp hblock
  obtain ⟨values, hvalues', rfl⟩ := Option.map_eq_some_iff.mp hvalues
  have hold := map_getBufferstring_append h.ends (hbuffer.trans (List.append_assoc _ _ _))
    (h.value_eq i block values hblock' hvalues' k)
  by_cases hi : bs.length - 1 = i
  · rw [if_pos hi, if_pos hi, lookup_insert, List.lookup_append, lookup_singleton,
      Option.map_or, Option.map_or, hold]
    congr 1
    split
    · exact congrArg some (getBufferstring_new hzero hbuffer)
    · rfl
  · rw [if_neg hi, if_neg hi]
    exact hold

theorem represents_pair (h : s.Represents bs) (hne : bs ≠ []) {key value : List Byte}
    (hzero : 0 ∉ value) {m : ℕ} (hm : 10 ≤ m) (hm' : m ≤ 30)
    (hlt : (s.buffer.length + (value.length + 1) : ℤ) < 2 ^ m) :
    { s with
      buffer := s.buffer ++ value ++ [0]
      bufferlengthMax := 2 ^ m
      valuesets := s.valuesets.modify (bs.length - 1) fun values =>
        insert values key s.buffer.length : Ini }.Represents
      (addToBlocks bs (.pair key value)) where
  length_eq := by simp [addToBlocks, h.length_eq]
  section_eq k := by rw [map_fst_addToBlocks_pair, h.section_eq]
  current_eq := by
    have hne' : addToBlocks bs (.pair key value) ≠ [] := by simpa [addToBlocks] using hne
    rw [if_neg hne', h.current_eq, if_neg hne, addToBlocks, List.length_modify]
  value_eq i block values hblock hvalues k :=
    lookup_addToBlocks_pair h hzero rfl hblock hvalues k
  ends := Or.inr (by simp)
  size_lt := by simpa using hlt
  size_eq := ⟨m, hm, hm', rfl⟩

def addParsed (s : Ini) : Line → Option Ini
  | .header name => some { s with
      sectiondata := insert s.sectiondata name s.valuesets.length
      valuesets := s.valuesets ++ [[]]
      currentSection := some s.valuesets.length }
  | .pair key value => do
      let (position, s) ← s.addBufferstring value
      let current ← s.currentSection
      return { s with
        valuesets := s.valuesets.modify current fun values => insert values key position }
  | .other => some s

theorem addLine_eq (s : Ini) (line : List Byte) :
    s.addLine line =
      (trimstring (cString line)).bind fun _ => s.addParsed (.parse (cleaned line)) := by
  unfold addLine
  cases h : trimstring (cString line) with
  | none => rfl
  | some buffer =>
    rw [Option.bind_eq_bind, Option.bind_some, Option.bind_some, ← parse_trimstring h]
    unfold Line.parse
    cases parsesection buffer with
    | some name => rfl
    | none => cases parsekey buffer <;> rfl

theorem addParsed_spec (h : s.Represents bs) {line : Line}
    (hpair : ∀ key value, line = .pair key value →
      bs ≠ [] ∧ value.length < lineMax ∧ 0 ∉ value) :
    (2 ^ 30 ≤ s.buffer.length + line.stored ∧ s.addParsed line = none) ∨
      (s.buffer.length + line.stored < 2 ^ 30 ∧ ∃ s', s.addParsed line = some s' ∧
        s'.Represents (addToBlocks bs line) ∧
        s'.buffer.length = s.buffer.length + line.stored) := by
  cases line with
  | header name => exact Or.inr ⟨h.length_lt, _, rfl, represents_header h name, rfl⟩
  | other => exact Or.inr ⟨h.length_lt, s, rfl, h, rfl⟩
  | pair key value =>
    obtain ⟨hne, hvalue, hzero⟩ := hpair key value rfl
    rcases addBufferstring_spec h hvalue with ⟨hfull, hnone⟩ | ⟨hfits, m, hm, hm', hltm, hsome⟩
    · refine Or.inl ⟨hfull, ?_⟩
      rw [addParsed, hnone]
      rfl
    · refine Or.inr ⟨hfits, _, ?_, represents_pair h hne hzero hm hm' hltm, ?_⟩
      · rw [addParsed, hsome, Option.bind_eq_bind, Option.bind_some]
        dsimp only
        rw [h.current_eq, if_neg hne]
        rfl
      · simp [Line.stored]

theorem headed_cons {line : Line} {lines : List Line}
    (h : Headed (decide (bs ≠ [])) (line :: lines)) :
    (∀ key value, line = .pair key value → bs ≠ []) ∧
      Headed (decide (addToBlocks bs line ≠ [])) lines := by
  cases line with
  | header name => exact ⟨nofun, by simpa [addToBlocks, Headed] using h⟩
  | pair key value =>
    exact ⟨fun _ _ _ => of_decide_eq_true h.1, by simpa [addToBlocks, Headed] using h.2⟩
  | other => exact ⟨nofun, h⟩

theorem addLine_spec (h : s.Represents bs) {line : List Byte} (hshort : line.length < lineMax)
    (hpair : ∀ key value, Line.parse (cleaned line) = .pair key value → bs ≠ []) :
    ((Emptied (cString line) ∨
        2 ^ 30 ≤ s.buffer.length + (Line.parse (cleaned line)).stored) ∧
        s.addLine line = none) ∨
      (¬ Emptied (cString line) ∧
        s.buffer.length + (Line.parse (cleaned line)).stored < 2 ^ 30 ∧
        ∃ s', s.addLine line = some s' ∧ s'.Represents (addToBlocks bs (.parse (cleaned line))) ∧
          s'.buffer.length = s.buffer.length + (Line.parse (cleaned line)).stored) := by
  rw [addLine_eq]
  by_cases hemptied : Emptied (cString line)
  · have hnone : trimstring (cString line) = none := by
      rw [← Option.not_isSome_iff_eq_none, trimstring_isSome_iff]
      exact not_not_intro hemptied
    exact Or.inl ⟨Or.inl hemptied, by rw [hnone]; rfl⟩
  · obtain ⟨buffer, hbuffer⟩ :=
      Option.isSome_iff_exists.mp ((trimstring_isSome_iff _).mpr hemptied)
    rw [hbuffer, Option.bind_some]
    have hparts : ∀ key value, Line.parse (cleaned line) = .pair key value →
        bs ≠ [] ∧ value.length < lineMax ∧ 0 ∉ value := by
      intro key value hparse
      have hsub := value_sublist hparse
      have hle := hsub.trans (List.takeWhile_sublist _) |>.length_le
      exact ⟨hpair key value hparse, Nat.lt_of_le_of_lt hle hshort,
        fun hmem => zero_notMem_cString _ (hsub.subset hmem)⟩
    rcases addParsed_spec h hparts with ⟨hfull, hnone⟩ | ⟨hfits, hsome⟩
    · exact Or.inl ⟨Or.inr hfull, hnone⟩
    · exact Or.inr ⟨hemptied, hfits, hsome⟩

def storedBytes (lines : List (List Byte)) : ℕ :=
  (lines.map fun line => (Line.parse (cleaned line)).stored).sum

/-- Lines can all be added if none of them becomes empty and the values fit into the buffer. They
then are the blocks. -/
theorem addLines_spec {lines : List (List Byte)} (h : s.Represents bs)
    (hshort : ∀ line ∈ lines, line.length < lineMax)
    (hheaded : Headed (decide (bs ≠ [])) (lines.map fun line => .parse (cleaned line))) :
    ((∃ s', lines.foldlM addLine s = some s') ↔
      (∀ line ∈ lines, ¬ Emptied (cString line)) ∧
        s.buffer.length + storedBytes lines < 2 ^ 30) ∧
      ∀ s', lines.foldlM addLine s = some s' →
        s'.Represents ((lines.map fun line => .parse (cleaned line)).foldl addToBlocks bs) := by
  induction lines generalizing s bs with
  | nil =>
    refine ⟨iff_of_true ⟨s, rfl⟩ ⟨by simp, h.length_lt⟩, fun s' hs' => ?_⟩
    cases hs'
    exact h
  | cons line lines ih =>
    have hstored : storedBytes (line :: lines) =
      (Line.parse (cleaned line)).stored + storedBytes lines := List.sum_cons
    obtain ⟨hpair, hrest⟩ := headed_cons hheaded
    rw [List.foldlM_cons, List.forall_mem_cons, hstored]
    rcases addLine_spec h (hshort line List.mem_cons_self) hpair with
      ⟨hbad, hnone⟩ | ⟨hemptied, hfits, s₁, hsome, hnext, hlength⟩
    · rw [hnone]
      refine ⟨iff_of_false nofun fun hall => ?_, nofun⟩
      rcases hbad with hemptied | hfull
      · exact hall.1.1 hemptied
      · omega
    · obtain ⟨hiff, hblocks⟩ := ih hnext (fun l hl => hshort l (List.mem_cons_of_mem _ hl)) hrest
      rw [hsome, Option.bind_eq_bind, Option.bind_some]
      refine ⟨hiff.trans ?_, hblocks⟩
      rw [hlength, Nat.add_assoc]
      exact ⟨fun hall => ⟨⟨hemptied, hall.1⟩, hall.2⟩, fun hall => ⟨hall.1.2, hall.2⟩⟩

end Step

section Lookup

variable {s : Ini} {bs : List Block}

theorem map_find_eq (h : s.Represents bs) (name key : List Byte) :
    (s.find name key).map s.getBufferstring =
      ((bs.find? fun block => block.1 = name).bind fun block => block.2.lookup key).map some := by
  unfold find
  rw [h.section_eq, List.findIdx?_map, List.find?_eq_bind_findIdx?_getElem?]
  change (((List.findIdx? (fun block => block.1 = name) bs).bind _).map _) = _
  cases List.findIdx? (fun block => block.1 = name) bs with
  | none => rfl
  | some i =>
    rw [Option.bind_some, Option.bind_some]
    cases hblock : bs[i]? with
    | none =>
      rw [List.getElem?_eq_none (h.length_eq ▸ List.getElem?_eq_none_iff.mp hblock)]
      rfl
    | some block =>
      obtain ⟨hi, -⟩ := List.getElem?_eq_some_iff.mp hblock
      obtain ⟨values, hvalues⟩ : ∃ values, s.valuesets[i]? = some values :=
        ⟨_, List.getElem?_eq_getElem (h.length_eq ▸ hi)⟩
      rw [hvalues]
      exact h.value_eq i block values hblock hvalues key

theorem get_eq (h : s.Represents bs) (name key : List Byte) :
    s.get name key = some ((bs.find? fun block => block.1 = name).bind
      fun block => block.2.lookup key) := by
  have hfind := map_find_eq h name key
  unfold get
  cases hposition : s.find name key with
  | none =>
    rw [hposition] at hfind
    rw [Option.map_eq_none_iff.mp hfind.symm]
  | some position =>
    rw [hposition] at hfind
    obtain ⟨value, hvalue, hread⟩ := Option.map_eq_some_iff.mp hfind.symm
    dsimp only
    rw [hvalue, ← hread]
    rfl

/-- The first block of a section has the first value in any of its blocks, unless only later ones
have the key. -/
theorem find?_bind_lookup_iff (bs : List Block) (name key : List Byte) :
    ((bs.find? fun block => block.1 = name).bind fun block => block.2.lookup key) =
        ((bs.filter fun block => block.1 = name).flatMap Prod.snd).lookup key ↔
      ((bs.filter fun block => block.1 = name).flatMap Prod.snd).lookup key = none ∨
        ((bs.find? fun block => block.1 = name).bind fun block => block.2.lookup key) ≠ none := by
  rw [← List.head?_filter]
  cases bs.filter fun block => block.1 = name with
  | nil => simp
  | cons block rest =>
    rw [List.head?_cons, Option.bind_some, List.flatMap_cons, List.lookup_append]
    cases block.2.lookup key with
    | none => simp [eq_comm]
    | some value => simp

/-- A file whose lines fit into the array and whose keys follow a section line is opened exactly
when its comments leave something of every line and its values fit into the buffer. A lookup then
finds the value of the first key line in any block of the section, or fails if there is none,
exactly when the first block of the section has the key or no block has it. -/
theorem ini_lookup_iff {text : List Byte} (hshort : ∀ line ∈ fileLines text, line.length < lineMax)
    (hheaded : Headed false (documentLines text)) :
    ((∃ s, openFile text = some s) ↔
      (∀ line ∈ fileLines text, ¬ Emptied (cString line)) ∧
        storedBytes (fileLines text) < 2 ^ 30) ∧
      ∀ s, openFile text = some s → ∀ name key,
        (s.get name key = some (reference text name key) ↔
          reference text name key = none ∨ firstBlockValue text name key ≠ none) := by
  have hlines : (fileLines text).takeWhile (fun line => line.length < lineMax) = fileLines text :=
    List.takeWhile_eq_self_iff.mpr fun line hline => decide_eq_true (hshort line hline)
  obtain ⟨hiff, hblocks⟩ := addLines_spec represents_new hshort hheaded
  unfold openFile
  rw [hlines]
  refine ⟨?_, fun s hs name key => ?_⟩
  · rw [hiff]
    exact and_congr_right fun _ => by rw [show new.buffer.length = 0 from rfl, Nat.zero_add]
  · rw [get_eq (hblocks s hs), Option.some.injEq]
    exact find?_bind_lookup_iff _ name key

/-- A section with two blocks. -/
theorem ini_lookup_iff_two_blocks :
    let text : List Byte := [0x5b, 0x61, 0x5d, 0x0a, 0x78, 0x3d, 0x31, 0x0a,
      0x5b, 0x61, 0x5d, 0x0a, 0x78, 0x3d, 0x32]
    (∀ line ∈ fileLines text, line.length < lineMax) ∧
      Headed false (documentLines text) ∧
      ((∃ s, openFile text = some s) ↔
        (∀ line ∈ fileLines text, ¬ Emptied (cString line)) ∧
          storedBytes (fileLines text) < 2 ^ 30) ∧
      reference text [0x61] [0x78] = some [0x31] := by
  have hshort : ∀ line ∈ fileLines [0x5b, 0x61, 0x5d, 0x0a, 0x78, 0x3d, 0x31, 0x0a,
      0x5b, 0x61, 0x5d, 0x0a, 0x78, 0x3d, 0x32], line.length < lineMax := by decide +kernel
  have hheaded : Headed false (documentLines [0x5b, 0x61, 0x5d, 0x0a, 0x78, 0x3d, 0x31, 0x0a,
      0x5b, 0x61, 0x5d, 0x0a, 0x78, 0x3d, 0x32]) := ⟨rfl, rfl, trivial⟩
  exact ⟨hshort, hheaded, (ini_lookup_iff hshort hheaded).1, by decide +kernel⟩

/-- The second block of a section is not found. A file with a line that is only a comment is read
outside of the line. -/
theorem ini_lookup_misses_block :
    let text : List Byte := [0x5b, 0x61, 0x5d, 0x0a, 0x78, 0x3d, 0x31, 0x0a,
      0x5b, 0x61, 0x5d, 0x0a, 0x79, 0x3d, 0x32, 0x0a]
    (∀ line ∈ fileLines text, line.length < lineMax) ∧
      Headed false (documentLines text) ∧
      (openFile text).map (fun s => s.get [0x61] [0x79]) = some (some none) ∧
      reference text [0x61] [0x79] = some [0x32] ∧
      openFile [note] = none :=
  ⟨by decide +kernel, ⟨rfl, rfl, trivial⟩, by decide +kernel⟩

end Lookup

end Plain.Ini
