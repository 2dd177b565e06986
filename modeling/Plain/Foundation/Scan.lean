import Mathlib.Data.List.Infix

/-! # Scanning a list from the left

A list is scanned from the left for separators. Where one begins it is taken as a whole,
and every other element is passed. The pieces between the separators hold none of them,
and pieces and separators make up the list.
-/

namespace Plain

variable {α : Type*}

/-- What a scan comes across: an element that is passed, or a separator. -/
inductive Token (α : Type*) where
  | char (c : α)
  | sep (s : List α)

/-- The scan of a list for the separators in `S`. No separator begins at an element that is
passed. -/
inductive Scan (S : List α → Prop) : List α → List (Token α) → Prop where
  | nil : Scan S [] []
  | sep {s rest : List α} {tokens : List (Token α)} :
      S s → Scan S rest tokens → Scan S (s ++ rest) (.sep s :: tokens)
  | char {c : α} {rest : List α} {tokens : List (Token α)} :
      (∀ s, S s → ¬ s <+: c :: rest) → Scan S rest tokens → Scan S (c :: rest) (.char c :: tokens)

namespace Token

def text : Token α → List α
  | char c => [c]
  | sep s => s

def isSep : Token α → Bool
  | char _ => false
  | sep _ => true

def replaced (replace : List α) : Token α → List α
  | char c => [c]
  | sep _ => replace

def replacedFirst (replace : List α) : ℕ → List (Token α) → List α
  | _, [] => []
  | n, char c :: tokens => c :: replacedFirst replace n tokens
  | 0, sep s :: tokens => s ++ replacedFirst replace 0 tokens
  | n + 1, sep _ :: tokens => replace ++ replacedFirst replace n tokens

def pieces : List (Token α) → List (List α)
  | [] => [[]]
  | char c :: tokens => (pieces tokens).modifyHead (c :: ·)
  | sep _ :: tokens => [] :: pieces tokens

def separators : List (Token α) → List (List α)
  | [] => []
  | char _ :: tokens => separators tokens
  | sep s :: tokens => s :: separators tokens

end Token

def interleave : List (List α) → List (List α) → List α
  | piece :: pieces, s :: separators => piece ++ (s ++ interleave pieces separators)
  | piece :: _, [] => piece
  | [], _ => []

namespace Token

theorem exists_pieces_eq_cons (tokens : List (Token α)) :
    ∃ piece others, pieces tokens = piece :: others := by
  induction tokens with
  | nil => exact ⟨_, _, rfl⟩
  | cons token tokens ih =>
    cases token with
    | char c =>
      obtain ⟨piece, others, h⟩ := ih
      exact ⟨c :: piece, others, by rw [pieces, h]; rfl⟩
    | sep s => exact ⟨_, _, rfl⟩

@[simp] theorem pieces_map_char (l : List α) : pieces (l.map char) = [l] := by
  induction l with
  | nil => rfl
  | cons c l ih => rw [List.map_cons, pieces, ih, List.modifyHead_cons]

@[simp] theorem pieces_append_sep (l s : List α) (tokens : List (Token α)) :
    pieces (l.map char ++ sep s :: tokens) = l :: pieces tokens := by
  induction l with
  | nil => rfl
  | cons c l ih => rw [List.map_cons, List.cons_append, pieces, ih, List.modifyHead_cons]

@[simp] theorem flatMap_replaced_map_char (replace l : List α) :
    (l.map char).flatMap (replaced replace) = l := by
  induction l with
  | nil => rfl
  | cons c l ih => rw [List.map_cons, List.flatMap_cons, ih, replaced, List.singleton_append]

@[simp] theorem countP_isSep_map_char (l : List α) : (l.map char).countP isSep = 0 := by
  rw [List.countP_eq_zero, List.forall_mem_map]
  exact fun _ _ => Bool.false_ne_true

theorem replacedFirst_zero (replace : List α) (tokens : List (Token α)) :
    replacedFirst replace 0 tokens = tokens.flatMap text := by
  induction tokens with
  | nil => rfl
  | cons token tokens ih =>
    cases token <;> rw [replacedFirst, ih, List.flatMap_cons] <;> rfl

theorem replacedFirst_map_char_append (replace : List α) (n : ℕ) (l : List α)
    (tokens : List (Token α)) :
    replacedFirst replace n (l.map char ++ tokens) = l ++ replacedFirst replace n tokens := by
  induction l with
  | nil => rfl
  | cons c l ih => rw [List.map_cons, List.cons_append, replacedFirst, ih, List.cons_append]

theorem length_separators (tokens : List (Token α)) :
    (separators tokens).length = tokens.countP isSep := by
  induction tokens with
  | nil => rfl
  | cons token tokens ih =>
    cases token with
    | char c => rw [separators, ih, List.countP_cons_of_neg Bool.false_ne_true]
    | sep s => rw [separators, List.length_cons, ih, List.countP_cons_of_pos rfl]

theorem length_pieces (tokens : List (Token α)) :
    (pieces tokens).length = (separators tokens).length + 1 := by
  induction tokens with
  | nil => rfl
  | cons token tokens ih =>
    cases token with
    | char c => rw [pieces, List.length_modifyHead, ih, separators]
    | sep s => rw [pieces, separators, List.length_cons, List.length_cons, ih]

theorem interleave_pieces (tokens : List (Token α)) :
    interleave (pieces tokens) (separators tokens) = tokens.flatMap text := by
  induction tokens with
  | nil => rfl
  | cons token tokens ih =>
    cases token with
    | char c =>
      obtain ⟨piece, others, h⟩ := exists_pieces_eq_cons tokens
      rw [h] at ih
      rw [pieces, h, separators, List.modifyHead_cons, List.flatMap_cons, ← ih]
      cases separators tokens <;> rfl
    | sep s => rw [pieces, separators, interleave, ih, List.flatMap_cons, List.nil_append, text]

end Token

theorem drop_append_separator (before s after : List α) :
    (before ++ (s ++ after)).drop (before.length + s.length) = after := by
  rw [← List.drop_drop, List.drop_left, List.drop_left]

namespace Scan

variable {S : List α → Prop} {l : List α} {tokens : List (Token α)}

theorem flatMap_text (h : Scan S l tokens) : tokens.flatMap Token.text = l := by
  induction h with
  | nil => rfl
  | sep _ _ ih => rw [List.flatMap_cons, ih, Token.text]
  | char _ _ ih => rw [List.flatMap_cons, ih, Token.text, List.singleton_append]

theorem interleave_eq (h : Scan S l tokens) :
    interleave (Token.pieces tokens) (Token.separators tokens) = l := by
  rw [Token.interleave_pieces, h.flatMap_text]

theorem of_mem_separators (h : Scan S l tokens) {s : List α}
    (hs : s ∈ Token.separators tokens) : S s := by
  induction h with
  | nil => exact absurd hs List.not_mem_nil
  | sep hS _ ih =>
    rcases List.mem_cons.mp hs with rfl | hs
    · exact hS
    · exact ih hs
  | char _ _ ih => exact ih hs

theorem prefix_of_pieces (h : Scan S l tokens) {piece : List α} {others : List (List α)}
    (hp : Token.pieces tokens = piece :: others) : piece <+: l := by
  induction h generalizing piece others with
  | nil =>
    obtain ⟨rfl, -⟩ := List.cons.inj hp
    exact List.prefix_refl []
  | sep _ _ _ =>
    obtain ⟨rfl, -⟩ := List.cons.inj hp
    exact List.nil_prefix
  | @char c rest tokens _ _ ih =>
    obtain ⟨piece', others', h'⟩ := Token.exists_pieces_eq_cons tokens
    rw [Token.pieces, h', List.modifyHead_cons] at hp
    obtain ⟨rfl, -⟩ := List.cons.inj hp
    exact (List.prefix_cons_inj c).mpr (ih h')

theorem not_infix_of_mem_pieces (h : Scan S l tokens) (hne : ∀ s, S s → s ≠ []) {s : List α}
    (hs : S s) {piece : List α} (hp : piece ∈ Token.pieces tokens) : ¬ s <:+: piece := by
  have hempty : ¬ s <:+: [] := fun h => hne s hs (List.infix_nil.mp h)
  induction h generalizing piece with
  | nil =>
    obtain rfl := List.mem_singleton.mp hp
    exact hempty
  | sep _ _ ih =>
    rcases List.mem_cons.mp hp with rfl | hp
    · exact hempty
    · exact ih hp
  | @char c rest tokens hnot hscan ih =>
    obtain ⟨first, others, h'⟩ := Token.exists_pieces_eq_cons tokens
    rw [Token.pieces, h', List.modifyHead_cons] at hp
    rcases List.mem_cons.mp hp with rfl | hp
    · rw [List.infix_cons_iff, not_or]
      constructor
      · intro hpre
        exact hnot s hs (hpre.trans ((List.prefix_cons_inj c).mpr (hscan.prefix_of_pieces h')))
      · exact ih (h' ▸ List.mem_cons_self)
    · exact ih (h' ▸ List.mem_cons_of_mem _ hp)

/-- Every list can be scanned for separators that are not empty. -/
theorem exists_scan (hne : ∀ s, S s → s ≠ []) (l : List α) :
    ∃ tokens, Scan S l tokens := by
  induction hn : l.length using Nat.strong_induction_on generalizing l with
  | _ n ih =>
    cases l with
    | nil => exact ⟨[], .nil⟩
    | cons c rest =>
      by_cases hsep : ∃ s, S s ∧ s <+: c :: rest
      · obtain ⟨s, hs, rest', hrest⟩ := hsep
        have hpos := List.length_pos_iff.mpr (hne s hs)
        have hlen := congrArg List.length hrest
        rw [List.length_append] at hlen
        obtain ⟨tokens, htokens⟩ := ih rest'.length (by omega) rest' rfl
        rw [← hrest]
        exact ⟨_, .sep hs htokens⟩
      · rw [List.length_cons] at hn
        obtain ⟨tokens, htokens⟩ := ih rest.length (by omega) rest rfl
        exact ⟨_, .char (fun s hs h => hsep ⟨s, hs, h⟩) htokens⟩

theorem first (h : Scan S l tokens) :
    (tokens = l.map .char ∧ ∀ s, S s → s ≠ [] → ¬ s <:+: l) ∨
      ∃ before s after rest, l = before ++ (s ++ after) ∧ S s ∧
        tokens = before.map .char ++ .sep s :: rest ∧ Scan S after rest ∧
        ∀ i < before.length, ∀ s', S s' → ¬ s' <+: l.drop i := by
  induction h with
  | nil => exact Or.inl ⟨rfl, fun s _ hne h => hne (List.infix_nil.mp h)⟩
  | @sep s rest tokens hs hscan _ =>
    refine Or.inr ⟨[], s, rest, tokens, rfl, hs, rfl, hscan, ?_⟩
    exact fun i hi => absurd hi (Nat.not_lt_zero i)
  | @char c rest tokens hnot _ ih =>
    rcases ih with ⟨rfl, hall⟩ | ⟨before, s, after, rest', rfl, hs, rfl, hscan, hbefore⟩
    · refine Or.inl ⟨rfl, fun s hs hne => ?_⟩
      rw [List.infix_cons_iff, not_or]
      exact ⟨hnot s hs, hall s hs hne⟩
    · refine Or.inr ⟨c :: before, s, after, rest', rfl, hs, rfl, hscan, fun i hi s' hs' => ?_⟩
      cases i with
      | zero => exact hnot s' hs'
      | succ i => exact hbefore i (Nat.lt_of_succ_lt_succ hi) s' hs'

end Scan

end Plain
