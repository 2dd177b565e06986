import Mathlib.Data.List.TakeWhile
import Plain.File.Tab

/-! # The lines of a text

Reading line after line gives the parts of the text between line ends that are not empty,
up to the first zero, as long as they fit into the buffer for a line.
-/

namespace Plain.Tab

/-- The lines of a text: what is between line ends, in front of the first zero. -/
def textLines (memory : List Byte) : List (List Byte) :=
  ((memory.takeWhile (· ≠ 0)).splitOnP isLineEnd).filter (· ≠ [])

def isOrdinary (c : Byte) : Bool := c ≠ 0 && !isLineEnd c

theorem isLineEnd_of_isOrdinary {c : Byte} (h : isOrdinary c = true) : isLineEnd c = false := by
  simpa using (Bool.and_eq_true_iff.mp h).2

theorem ne_zero_of_isOrdinary {c : Byte} (h : isOrdinary c = true) : c ≠ 0 :=
  of_decide_eq_true (Bool.and_eq_true_iff.mp h).1

theorem ne_zero_of_isLineEnd {c : Byte} (h : isLineEnd c = true) : c ≠ 0 := by
  rintro rfl
  revert h
  decide

theorem isOrdinary_eq_false_iff {c : Byte} :
    isOrdinary c = false ↔ c = 0 ∨ isLineEnd c = true := by
  unfold isOrdinary
  rw [Bool.and_eq_false_iff, decide_eq_false_iff_not, not_not, Bool.not_eq_false']

theorem textLines_cons_of_isLineEnd {c : Byte} (h : isLineEnd c = true) (memory : List Byte) :
    textLines (c :: memory) = textLines memory := by
  unfold textLines
  rw [List.takeWhile_cons_of_pos (by simpa using ne_zero_of_isLineEnd h),
    List.splitOnP_cons_eq_if_modifyHead, if_pos h, List.filter_cons_of_neg (by simp)]

theorem textLines_dropWhile (memory : List Byte) :
    textLines (memory.dropWhile isLineEnd) = textLines memory := by
  induction memory with
  | nil => rfl
  | cons c memory ih =>
    cases h : isLineEnd c with
    | true => rw [List.dropWhile_cons_of_pos h, ih, textLines_cons_of_isLineEnd h]
    | false => rw [List.dropWhile_cons_of_neg (by simp [h])]

theorem textLines_of_stop {memory : List Byte} (h : memory = [] ∨ memory.head? = some 0) :
    textLines memory = [] := by
  rcases h with rfl | h
  · rfl
  · cases memory with
    | nil => rfl
    | cons c memory =>
      rw [List.head?_cons, Option.some.injEq] at h
      subst h
      rfl

theorem textLines_append {line : List Byte} (hline : ∀ c ∈ line, isOrdinary c = true)
    (hne : line ≠ []) {rest : List Byte} (hrest : ∀ c ∈ rest.head?, isOrdinary c = false) :
    textLines (line ++ rest) = line :: textLines (rest.dropWhile isLineEnd) := by
  have hend : ∀ c ∈ line, isLineEnd c = false := fun c hc => isLineEnd_of_isOrdinary (hline c hc)
  have hnul : ∀ c ∈ line, decide (c ≠ 0) = true :=
    fun c hc => decide_eq_true (ne_zero_of_isOrdinary (hline c hc))
  rw [textLines_dropWhile]
  unfold textLines
  rw [List.takeWhile_append_of_pos hnul]
  cases rest with
  | nil =>
    rw [List.takeWhile_nil, List.append_nil, List.splitOnP_eq_singleton hend,
      List.filter_cons_of_pos (by simpa using hne)]
    rfl
  | cons c rest =>
    rcases isOrdinary_eq_false_iff.mp (hrest c rfl) with rfl | hc
    · rw [List.takeWhile_cons_of_neg (by simp), List.append_nil,
        List.splitOnP_eq_singleton hend, List.filter_cons_of_pos (by simpa using hne)]
      rfl
    · rw [List.takeWhile_cons_of_pos (by simpa using ne_zero_of_isLineEnd hc),
        List.splitOnP_append_cons_of_forall_mem hend c hc,
        List.filter_cons_of_pos (by simpa using hne), List.splitOnP_cons_eq_if_modifyHead,
        if_pos hc, List.filter_cons_of_neg (by simp)]

theorem textLines_line {line : List Byte} (hline : ∀ c ∈ line, isOrdinary c = true)
    (hne : line ≠ []) (rest : List Byte) :
    textLines (line ++ lineFeed :: rest) = line :: textLines rest := by
  rw [textLines_append hline hne, textLines_dropWhile, textLines_cons_of_isLineEnd (by decide)]
  rintro _ ⟨⟩
  decide

theorem head?_dropWhile {p : Byte → Bool} {l : List Byte} :
    ∀ c ∈ (l.dropWhile p).head?, p c = false := by
  intro c hc
  have h := List.head?_dropWhile_not p l
  rw [hc] at h
  exact h

theorem getLineFromMemory_of_short {memory : List Byte}
    (hstop : ¬ (memory = [] ∨ memory.head? = some 0))
    (hshort : (memory.takeWhile isOrdinary).length < lineSize) :
    getLineFromMemory lineSize memory = some (memory.takeWhile isOrdinary,
      (memory.dropWhile isOrdinary).dropWhile isLineEnd) := by
  have hline : (memory.take (lineSize - 1)).takeWhile isOrdinary = memory.takeWhile isOrdinary := by
    rw [← List.take_takeWhile]
    exact List.take_of_length_le (by omega)
  have hdrop : memory.drop (memory.takeWhile isOrdinary).length = memory.dropWhile isOrdinary := by
    have hsplit := List.takeWhile_append_dropWhile (p := isOrdinary) (l := memory)
    exact (congrArg (List.drop _) hsplit.symm).trans List.drop_left
  have hget : getLineFromMemory lineSize memory =
      some ((memory.take (lineSize - 1)).takeWhile isOrdinary,
        (memory.drop ((memory.take (lineSize - 1)).takeWhile isOrdinary).length).dropWhile
          isLineEnd) := by
    unfold getLineFromMemory
    rw [if_neg hstop]
    rfl
  rw [hget, hline, hdrop]

/-- A text begins with a line: it does not begin with the end of one. -/
def StartsLine (memory : List Byte) : Prop := ∀ c ∈ memory.head?, isLineEnd c = false

theorem getLineFromMemory_cases {memory : List Byte} (hstart : StartsLine memory)
    (hshort : ∀ line ∈ textLines memory, line.length < lineSize) :
    (textLines memory = [] ∧ getLineFromMemory lineSize memory = none) ∨
      ∃ line rest, textLines memory = line :: textLines rest ∧ StartsLine rest ∧
        rest.length < memory.length ∧ getLineFromMemory lineSize memory = some (line, rest) := by
  by_cases hstop : memory = [] ∨ memory.head? = some 0
  · exact Or.inl ⟨textLines_of_stop hstop, if_pos hstop⟩
  · right
    obtain ⟨c, memory', rfl⟩ := List.exists_cons_of_ne_nil (fun h => hstop (Or.inl h))
    have hc : isOrdinary c = true := by
      rw [← Bool.not_eq_false, isOrdinary_eq_false_iff]
      rintro (rfl | hend)
      · exact hstop (Or.inr rfl)
      · rw [hstart c rfl] at hend
        cases hend
    have hline := List.takeWhile_cons_of_pos (l := memory') hc
    have hrest := List.dropWhile_cons_of_pos (l := memory') hc
    have hlines : textLines (c :: memory') = (c :: memory'.takeWhile isOrdinary) ::
        textLines ((memory'.dropWhile isOrdinary).dropWhile isLineEnd) := by
      have hord : ∀ d ∈ c :: memory'.takeWhile isOrdinary, isOrdinary d = true := by
        rw [← hline]
        exact fun _ => List.mem_takeWhile_imp
      have happend := textLines_append hord (List.cons_ne_nil _ _)
        (head?_dropWhile (p := isOrdinary) (l := memory'))
      rwa [List.cons_append, List.takeWhile_append_dropWhile] at happend
    refine ⟨_, _, hlines, head?_dropWhile, ?_, ?_⟩
    · have h₁ := (List.dropWhile_sublist (p := isLineEnd)
        (l := memory'.dropWhile isOrdinary)).length_le
      have h₂ := (List.dropWhile_sublist (p := isOrdinary) (l := memory')).length_le
      rw [List.length_cons]
      omega
    · rw [getLineFromMemory_of_short hstop, hline, hrest]
      rw [hline]
      exact hshort _ (hlines ▸ List.mem_cons_self)

/-- Reading all lines gives the lines of the text. -/
theorem memoryLines_eq {bytes : ℕ} {memory : List Byte} (hbytes : memory.length ≤ bytes)
    (hstart : StartsLine memory) (hshort : ∀ line ∈ textLines memory, line.length < lineSize) :
    memoryLines bytes memory = textLines memory := by
  induction bytes generalizing memory with
  | zero =>
    obtain rfl := List.length_eq_zero_iff.mp (Nat.le_zero.mp hbytes)
    rfl
  | succ bytes ih =>
    unfold memoryLines
    rcases getLineFromMemory_cases hstart hshort with
      ⟨hlines, hget⟩ | ⟨line, rest, hlines, hstart', hlt, hget⟩
    · rw [hget, hlines]
    · rw [hget, hlines]
      dsimp only
      rw [ih (by omega) hstart' fun l hl => hshort l (hlines ▸ List.mem_cons_of_mem _ hl)]

theorem getLineFromMemory_line {memory line rest : List Byte}
    (h : getLineFromMemory lineSize memory = some (line, rest)) :
    line.length < lineSize ∧ 0 ∉ line := by
  unfold getLineFromMemory at h
  split at h
  · cases h
  · simp only [Option.some.injEq, Prod.mk.injEq] at h
    obtain ⟨rfl, _⟩ := h
    constructor
    · have hle := (List.takeWhile_sublist (l := memory.take (lineSize - 1))
        fun c => c ≠ 0 && !isLineEnd c).length_le
      rw [List.length_take] at hle
      have : 0 < lineSize := by decide
      omega
    · intro hmem
      exact absurd (List.mem_takeWhile_imp hmem) (by simp)

theorem memoryLines_line {bytes : ℕ} {memory line : List Byte}
    (h : line ∈ memoryLines bytes memory) : line.length < lineSize ∧ 0 ∉ line := by
  induction bytes generalizing memory with
  | zero => cases h
  | succ bytes ih =>
    unfold memoryLines at h
    cases hget : getLineFromMemory lineSize memory with
    | none =>
      rw [hget] at h
      cases h
    | some r =>
      rw [hget] at h
      rcases List.mem_cons.mp h with rfl | hrest
      · exact getLineFromMemory_line hget
      · exact ih hrest

end Plain.Tab
