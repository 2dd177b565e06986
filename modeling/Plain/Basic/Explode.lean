import Mathlib.Data.List.Basic
import Plain.Foundation.Bytes
import Plain.Foundation.Int32
import Plain.Foundation.Scan

/-! # Splitting texts

A text is split at every character of a key, or at every occurrence of the whole key. With
a key of one character this is the splitting of lists. In general the items are the pieces
between the separators that a scan of the text finds. Their number is returned with 32 bits.
-/

namespace Plain

/-- The place of the first separator: `find_first_of`, or `find`. -/
def findKey (key : List Byte) (oneKey : Bool) (rest : List Byte) : Option ℕ :=
  if oneKey then rest.findIdx? key.contains
  else (List.range (rest.length + 1)).find? fun i => key.isPrefixOf (rest.drop i)

/-- The loop of `explode` on what is right of the last separator. A loop that goes on makes
more rounds than there are characters. -/
def explodeLoop (key : List Byte) (oneKey ignoreEmpty : Bool) :
    ℕ → List Byte → Option (List (List Byte))
  | 0, _ => none
  | rounds + 1, rest =>
      let right := (findKey key oneKey rest).getD rest.length
      let item := rest.take right
      let items := if item.length > 0 || !ignoreEmpty then [item] else []
      if right = rest.length then some items
      else
        let left := right + if oneKey then 1 else key.length
        (explodeLoop key oneKey ignoreEmpty rounds (rest.drop left)).map (items ++ ·)

/-- The items, if the function returns. The key may be an empty one. -/
def explode (source key : List Byte) (oneKey ignoreEmpty : Bool) : Option (List (List Byte)) :=
  if source = [] then some []
  else explodeLoop key oneKey ignoreEmpty (source.length + 1) source

def itemsAt (sep : Byte) (ignoreEmpty : Bool) (source : List Byte) : List (List Byte) :=
  (source.splitOnP (· == sep)).filter fun item => item.length > 0 || !ignoreEmpty

section AnyKey

/-- What separates: one character of the key, or the whole key. -/
def IsSeparator (key : List Byte) : Bool → List Byte → Prop
  | true, s => ∃ c ∈ key, s = [c]
  | false, s => s = key

def explodeCounted (source key : List Byte) (oneKey ignoreEmpty : Bool) :
    Option (List (List Byte) × ℤ) :=
  (explode source key oneKey ignoreEmpty).map fun result =>
    (result, (BitVec.ofNat 32 result.length).toInt)

variable {key s rest : List Byte} {oneKey : Bool}

theorem IsSeparator.length_eq (h : IsSeparator key oneKey s) :
    s.length = if oneKey then 1 else key.length := by
  cases oneKey with
  | true =>
    obtain ⟨c, _, rfl⟩ := h
    rfl
  | false =>
    obtain rfl : s = key := h
    rfl

theorem IsSeparator.ne_nil (h : IsSeparator key oneKey s) (hkey : key ≠ []) : s ≠ [] := by
  cases oneKey with
  | true =>
    obtain ⟨c, _, rfl⟩ := h
    exact List.cons_ne_nil _ _
  | false =>
    obtain rfl : s = key := h
    exact hkey

section Find

theorem findKey_separator (h : IsSeparator key oneKey s) (hkey : key ≠ []) :
    findKey key oneKey (s ++ rest) = some 0 := by
  cases oneKey with
  | true =>
    obtain ⟨c, hc, rfl⟩ := h
    simp [findKey, List.findIdx?_cons, hc]
  | false =>
    obtain rfl : s = key := h
    simp [findKey, List.range_succ_eq_map]

theorem findKey_cons {c : Byte} (h : ∀ s, IsSeparator key oneKey s → ¬ s <+: c :: rest) :
    findKey key oneKey (c :: rest) = (findKey key oneKey rest).map (· + 1) := by
  cases oneKey with
  | true =>
    have hc : c ∉ key := fun hc => h [c] ⟨c, hc, rfl⟩ ⟨rest, rfl⟩
    simp [findKey, List.findIdx?_cons, hc]
  | false =>
    have hkey : key.isPrefixOf (c :: rest) = false := by
      rw [Bool.eq_false_iff, ne_eq, List.isPrefixOf_iff_prefix]
      exact h key rfl
    rw [findKey, if_neg Bool.false_ne_true, List.length_cons, List.range_succ_eq_map,
      List.find?_cons_of_neg (by simp [hkey]), List.find?_map]
    rfl

theorem findKey_eq_none (hkey : key ≠ [])
    (h : ∀ s, IsSeparator key oneKey s → ¬ s <:+: rest) : findKey key oneKey rest = none := by
  induction rest with
  | nil =>
    cases oneKey with
    | true => rfl
    | false => simp [findKey, List.range_succ, hkey]
  | cons c rest ih =>
    rw [findKey_cons fun s hs hpre => h s hs hpre.isInfix,
      ih fun s hs hinfix => h s hs (List.infix_cons hinfix)]
    rfl

theorem findKey_eq_some {before : List Byte} (hkey : key ≠ []) (hs : IsSeparator key oneKey s)
    (h : ∀ i < before.length, ∀ s', IsSeparator key oneKey s' →
      ¬ s' <+: (before ++ (s ++ rest)).drop i) :
    findKey key oneKey (before ++ (s ++ rest)) = some before.length := by
  induction before with
  | nil =>
    rw [List.nil_append]
    exact findKey_separator hs hkey
  | cons c before ih =>
    have hfirst : ∀ s', IsSeparator key oneKey s' → ¬ s' <+: c :: (before ++ (s ++ rest)) :=
      h 0 (Nat.succ_pos _)
    rw [List.cons_append, findKey_cons hfirst, ih fun i hi => h (i + 1) (Nat.succ_lt_succ hi)]
    rfl

end Find

/-- The rounds of the loop are the pieces of the scan. -/
theorem explodeLoop_eq_pieces (hkey : key ≠ []) (ignoreEmpty : Bool) {rounds : ℕ}
    {tokens : List (Token Byte)} (h : Scan (IsSeparator key oneKey) rest tokens)
    (hrounds : rest.length < rounds) :
    explodeLoop key oneKey ignoreEmpty rounds rest =
      some ((Token.pieces tokens).filter fun item => item.length > 0 || !ignoreEmpty) := by
  induction rounds generalizing rest tokens with
  | zero => omega
  | succ rounds ih =>
    unfold explodeLoop
    rcases h.first with ⟨rfl, hnone⟩ | ⟨before, s, after, others, rfl, hs, rfl, hscan, hbefore⟩
    · have hfind : findKey key oneKey rest = none :=
        findKey_eq_none hkey fun s hs => hnone s hs (hs.ne_nil hkey)
      rw [Token.pieces_map_char, List.filter_singleton, hfind, Bool.cond_eq_ite]
      simp
    · have hpos := List.length_pos_iff.mpr (hs.ne_nil hkey)
      have hlen : (before ++ (s ++ after)).length = before.length + s.length + after.length := by
        rw [List.length_append, List.length_append, Nat.add_assoc]
      rw [findKey_eq_some hkey hs hbefore, Option.getD_some, Token.pieces_append_sep]
      dsimp only
      rw [if_neg (by omega), ← hs.length_eq, drop_append_separator, ih hscan (by omega),
        Option.map_some, List.take_left, List.filter_cons]
      split <;> rfl

theorem explode_eq_pieces (hkey : key ≠ []) (ignoreEmpty : Bool) {source : List Byte}
    (hsource : source ≠ []) {tokens : List (Token Byte)}
    (h : Scan (IsSeparator key oneKey) source tokens) :
    explode source key oneKey ignoreEmpty =
      some ((Token.pieces tokens).filter fun item => item.length > 0 || !ignoreEmpty) := by
  rw [explode, if_neg hsource]
  exact explodeLoop_eq_pieces hkey ignoreEmpty h (Nat.lt_succ_self _)

theorem pieces_eq_splitOnP {sep : Byte} {source : List Byte} {tokens : List (Token Byte)}
    (h : Scan (IsSeparator [sep] true) source tokens) :
    Token.pieces tokens = source.splitOnP (· == sep) := by
  induction h with
  | nil => rfl
  | sep hs _ ih =>
    obtain ⟨c, hc, rfl⟩ := hs
    obtain rfl := List.mem_singleton.mp hc
    rw [Token.pieces, ih, List.singleton_append, List.splitOnP_cons_eq_if_modifyHead,
      if_pos (beq_self_eq_true c)]
  | @char c rest tokens hnot _ ih =>
    have hc : c ≠ sep := by
      rintro rfl
      exact hnot [c] ⟨c, List.mem_singleton_self c, rfl⟩ ⟨rest, rfl⟩
    rw [Token.pieces, ih, List.splitOnP_cons_eq_if_modifyHead, if_neg (by simpa using hc)]

theorem explode_eq_items (sep : Byte) (ignoreEmpty : Bool) (source : List Byte) :
    explode source [sep] true ignoreEmpty =
      some (if source = [] then [] else itemsAt sep ignoreEmpty source) := by
  by_cases hsource : source = []
  · rw [explode, if_pos hsource, if_pos hsource]
  · have hkey := List.cons_ne_nil sep []
    obtain ⟨tokens, h⟩ := Scan.exists_scan (fun s (hs : IsSeparator [sep] true s) =>
      hs.ne_nil hkey) source
    rw [explode_eq_pieces hkey ignoreEmpty hsource h, if_neg hsource, pieces_eq_splitOnP h, itemsAt]

/-- Pieces and separators make up the text, no piece holds a separator, and the empty pieces are
left out if they are to be ignored. The number that is returned is that of the items exactly
when it is less than two to the 31. -/
theorem explode_pieces_iff (source key : List Byte) (hsource : source ≠ []) (hkey : key ≠ [])
    (oneKey : Bool) :
    ∃ tokens, Scan (IsSeparator key oneKey) source tokens ∧
      interleave (Token.pieces tokens) (Token.separators tokens) = source ∧
      (Token.pieces tokens).length = (Token.separators tokens).length + 1 ∧
      (∀ s ∈ Token.separators tokens, IsSeparator key oneKey s) ∧
      (∀ piece ∈ Token.pieces tokens, ∀ s, IsSeparator key oneKey s → ¬ s <:+: piece) ∧
      ∀ ignoreEmpty, ∃ result count,
        explodeCounted source key oneKey ignoreEmpty = some (result, count) ∧
        result = (if ignoreEmpty then (Token.pieces tokens).filter (· ≠ [])
          else Token.pieces tokens) ∧
        (count = result.length ↔ result.length < 2 ^ 31) := by
  have hne (s : List Byte) (hs : IsSeparator key oneKey s) : s ≠ [] := hs.ne_nil hkey
  obtain ⟨tokens, h⟩ := Scan.exists_scan hne source
  refine ⟨tokens, h, h.interleave_eq, Token.length_pieces tokens, fun s => h.of_mem_separators,
    fun piece hp s hs => h.not_infix_of_mem_pieces hne hs hp, fun ignoreEmpty => ?_⟩
  have hresult := explode_eq_pieces hkey ignoreEmpty hsource h
  refine ⟨_, _, congrArg (Option.map _) hresult, ?_, toInt_ofNat_eq_iff _⟩
  cases ignoreEmpty with
  | true =>
    refine List.filter_congr fun piece _ => ?_
    simp [List.length_pos_iff]
  | false => simp

/-- The text "a,b" is split at its comma. -/
theorem explode_pieces_iff_comma :
    explodeCounted [97, 44, 98] [44] true false = some ([[97], [98]], 2) ∧
      ∃ tokens, Scan (IsSeparator [44] true) [97, 44, 98] tokens ∧
        interleave (Token.pieces tokens) (Token.separators tokens) = [97, 44, 98] := by
  obtain ⟨tokens, h, hsource, -⟩ :=
    explode_pieces_iff [97, 44, 98] [44] (by decide) (by decide) true
  exact ⟨rfl, tokens, h, hsource⟩

theorem itemsAt_replicate (sep : Byte) (n : ℕ) :
    itemsAt sep false (List.replicate n sep) = List.replicate (n + 1) [] := by
  induction n with
  | zero => rfl
  | succ n ih =>
    rw [itemsAt] at ih ⊢
    rw [List.replicate_succ, List.splitOnP_cons_eq_if_modifyHead, if_pos (beq_self_eq_true sep),
      List.filter_cons_of_pos rfl, ih]
    rfl

/-- A text of two to the 31 minus one commas has two to the 31 items, and a negative number is
returned. -/
theorem explode_count_wraps :
    explodeCounted (List.replicate (2 ^ 31 - 1) 44) [44] true false =
      some (List.replicate (2 ^ 31) [], -2 ^ 31) := by
  have hne : List.replicate (2 ^ 31 - 1) (44 : Byte) ≠ [] := by
    rw [ne_eq, List.replicate_eq_nil_iff]
    decide
  have hcount : (BitVec.ofNat 32 (2 ^ 31)).toInt = -2 ^ 31 := by decide
  have hlen : 2 ^ 31 - 1 + 1 = 2 ^ 31 := by decide
  rw [explodeCounted, explode_eq_items, if_neg hne, itemsAt_replicate, Option.map_some,
    List.length_replicate, hlen, hcount]

end AnyKey

theorem flatten_splitOnP (p : Byte → Bool) (source : List Byte) :
    (source.splitOnP p).flatten = source.filter (! p ·) := by
  induction source with
  | nil => rfl
  | cons c source ih =>
    rw [List.splitOnP_cons_eq_if_modifyHead, List.filter_cons]
    cases hc : p c with
    | true => simpa using ih
    | false =>
      cases hs : source.splitOnP p with
      | nil => exact absurd hs (List.splitOnP_ne_nil p source)
      | cons part parts =>
        rw [hs] at ih
        simp [← ih]

end Plain
