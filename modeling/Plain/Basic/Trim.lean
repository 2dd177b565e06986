import Mathlib.Data.List.DropRight
import Plain.Foundation.Bytes

/-! # Trimming

The mask characters are taken from the ends of a text one after another, each of them once.
So an end is trimmed completely only if its characters come in the order of the mask.
-/

namespace Plain

/-- The mask of a call without one: the text of the source ends at its first zero. -/
def defaultMask : List Byte := [0x20, 0x09, 0x0a, 0x0d]

def findFirstNotOf (c : Byte) (str : List Byte) : Option ℕ := str.findIdx? (· != c)

def findLastNotOf (c : Byte) (str : List Byte) : Option ℕ :=
  (str.reverse.findIdx? (· != c)).map (str.length - 1 - ·)

/-- Without a position that was found everything is erased. -/
def eraseFront (str : List Byte) (c : Byte) : List Byte :=
  (findFirstNotOf c str).elim [] str.drop

/-- The position behind none is the first one. -/
def eraseBack (str : List Byte) (c : Byte) : List Byte :=
  str.take ((findLastNotOf c str).elim 0 (· + 1))

def ltrim (str characterMask : List Byte) : List Byte :=
  if str = [] then str else characterMask.foldl eraseFront str

def rtrim (str characterMask : List Byte) : List Byte :=
  if str = [] then str else characterMask.foldl eraseBack str

def trim (str characterMask : List Byte) : List Byte :=
  if str = [] then str else characterMask.foldl (fun str c => eraseBack (eraseFront str c) c) str

section Erase

theorem eraseFront_eq (str : List Byte) (c : Byte) : eraseFront str c = str.dropWhile (· == c) := by
  induction str with
  | nil => rfl
  | cons a str ih =>
    rw [List.dropWhile_cons]
    by_cases h : a = c
    · subst h
      simp only [eraseFront, findFirstNotOf, List.findIdx?_cons, bne_self_eq_false] at ih ⊢
      rw [if_pos (beq_self_eq_true a), ← ih]
      cases List.findIdx? (· != a) str <;> rfl
    · simp [eraseFront, findFirstNotOf, List.findIdx?_cons, h]

theorem eraseBack_eq (str : List Byte) (c : Byte) : eraseBack str c = str.rdropWhile (· == c) := by
  rw [List.rdropWhile, ← eraseFront_eq, eraseBack, eraseFront, findFirstNotOf, findLastNotOf]
  cases h : str.reverse.findIdx? (· != c) with
  | none => rfl
  | some i =>
    have hi : i < str.length := by
      have := (List.findIdx?_eq_some_iff_findIdx_eq.mp h).1
      rwa [List.length_reverse] at this
    simp only [Option.map_some, Option.elim_some, List.drop_reverse, List.reverse_reverse]
    congr 1
    omega

end Erase

section Ends

variable {α : Type*} {left right : Bool} {p : α → Bool}

/-- A text without what fulfils `p` at the ends that are asked for. -/
def stripEnds (left right : Bool) (p : α → Bool) (s : List α) : List α :=
  let s := if left then s.dropWhile p else s
  if right then s.rdropWhile p else s

/-- What is cut from the ends of a text, of which one may have to stay. -/
structure Cut (left right : Bool) (front back : List α) : Prop where
  front : left = false → front = []
  back : right = false → back = []

theorem stripEnds_spec (left right : Bool) (p : α → Bool) (s : List α) :
    ∃ x y, s = x ++ stripEnds left right p s ++ y ∧ Cut left right x y ∧
      (∀ a ∈ x, p a) ∧ ∀ a ∈ y, p a := by
  let t := if left then s.dropWhile p else s
  have hfront : ∃ x, s = x ++ t ∧ (left = false → x = []) ∧ ∀ a ∈ x, p a := by
    cases left with
    | false => exact ⟨[], rfl, fun _ => rfl, by simp⟩
    | true =>
      exact ⟨s.takeWhile p, List.takeWhile_append_dropWhile.symm, nofun,
        fun a ha => List.mem_takeWhile_imp ha⟩
  have hback : ∃ y, t = stripEnds left right p s ++ y ∧ (right = false → y = []) ∧
      ∀ a ∈ y, p a := by
    cases right with
    | false => exact ⟨[], (List.append_nil _).symm, fun _ => rfl, by simp⟩
    | true =>
      exact ⟨t.rtakeWhile p, List.rdropWhile_append_rtakeWhile.symm, nofun,
        fun a ha => List.mem_rtakeWhile_imp ha⟩
  obtain ⟨x, hs, hx, hxp⟩ := hfront
  obtain ⟨y, ht, hy, hyp⟩ := hback
  refine ⟨x, y, ?_, ⟨hx, hy⟩, hxp, hyp⟩
  rw [List.append_assoc, ← ht, ← hs]

theorem stripEnds_sublist (left right : Bool) (p : α → Bool) (s : List α) :
    (stripEnds left right p s).Sublist s := by
  obtain ⟨x, y, hs, -⟩ := stripEnds_spec left right p s
  conv_rhs => rw [hs]
  exact (List.infix_append x _ y).sublist

theorem rdropWhile_append_of_all {y : List α} (hy : ∀ a ∈ y, p a) (s : List α) :
    (s ++ y).rdropWhile p = s.rdropWhile p := by
  rw [List.rdropWhile, List.rdropWhile, List.reverse_append,
    List.dropWhile_append_of_pos fun a ha => hy a (List.mem_reverse.mp ha)]

theorem stripEnds_append {x y : List α} (hcut : Cut left right x y) (hx : ∀ a ∈ x, p a)
    (hy : ∀ a ∈ y, p a) (s : List α) :
    stripEnds left right p (x ++ s ++ y) = stripEnds left right p s := by
  have hback (t : List α) : (if right then (t ++ y).rdropWhile p else t ++ y) =
      if right then t.rdropWhile p else t := by
    cases right with
    | false => rw [hcut.back rfl, List.append_nil]
    | true => exact rdropWhile_append_of_all hy t
  cases left with
  | false =>
    rw [hcut.front rfl]
    exact hback s
  | true =>
    have hfront : (x ++ s ++ y).dropWhile p =
        if (s.dropWhile p).isEmpty then [] else s.dropWhile p ++ y := by
      rw [List.append_assoc, List.dropWhile_append_of_pos hx, List.dropWhile_append,
        List.dropWhile_eq_nil_iff.mpr hy]
    simp only [stripEnds, if_true, hfront]
    by_cases h : (s.dropWhile p).isEmpty
    · rw [if_pos h, List.isEmpty_iff.mp h]
    · rw [if_neg h]
      exact hback _

theorem stripEnds_idem (left right : Bool) (p : α → Bool) (s : List α) :
    stripEnds left right p (stripEnds left right p s) = stripEnds left right p s := by
  obtain ⟨x, y, hs, hcut, hx, hy⟩ := stripEnds_spec left right p s
  conv_rhs => rw [hs, stripEnds_append hcut hx hy]

theorem not_of_stripEnds_eq {x y s : List α} (hcut : Cut left right x y) (hx : ∀ a ∈ x, p a)
    (hy : ∀ a ∈ y, p a) (h : stripEnds left right p (x ++ s ++ y) = x ++ s ++ y) :
    x = [] ∧ y = [] := by
  rw [stripEnds_append hcut hx hy] at h
  have hlen := (stripEnds_sublist left right p s).length_le
  rw [h, List.length_append, List.length_append] at hlen
  constructor <;> exact List.length_eq_zero_iff.mp (by omega)

theorem not_of_mem_head? {s : List α} (h : stripEnds true right p s = s) :
    ∀ a ∈ s.head?, ¬ p a := by
  intro a ha hp
  cases s with
  | nil => cases ha
  | cons b s =>
    obtain rfl := Option.mem_some.mp ha
    have hcut : Cut true right [b] ([] : List α) := ⟨nofun, fun _ => rfl⟩
    have h := not_of_stripEnds_eq (s := s) hcut (by simpa using hp) (by simp) (by simpa using h)
    exact absurd h.1 (List.cons_ne_nil b [])

theorem not_of_mem_getLast? {s : List α} (h : stripEnds left true p s = s) :
    ∀ a ∈ s.getLast?, ¬ p a := by
  intro a ha hp
  obtain ⟨s, rfl⟩ := List.getLast?_eq_some_iff.mp ha
  have hcut : Cut left true ([] : List α) [a] := ⟨fun _ => rfl, nofun⟩
  have h := not_of_stripEnds_eq (s := s) hcut (by simp) (by simpa using hp) (by simpa using h)
  exact absurd h.2 (List.cons_ne_nil a [])

end Ends

section Runs

variable {c : Byte} {mask p : List Byte}

/-- A text of mask characters that come in the order of the mask, each of them any number of
times. -/
inductive Runs : List Byte → List Byte → Prop where
  | done {mask : List Byte} : Runs mask []
  | same {c : Byte} {mask p : List Byte} : Runs (c :: mask) p → Runs (c :: mask) (c :: p)
  | next {c : Byte} {mask p : List Byte} : Runs mask p → Runs (c :: mask) p

theorem Runs.mem (h : Runs mask p) : ∀ a ∈ p, a ∈ mask := by
  induction h with
  | done => exact fun a ha => absurd ha List.not_mem_nil
  | same _ ih => exact List.forall_mem_cons.mpr ⟨List.mem_cons_self, ih⟩
  | next _ ih => exact fun a ha => List.mem_cons_of_mem _ (ih a ha)

theorem runs_cons_iff :
    Runs (c :: mask) p ↔ ∃ x q, (∀ a ∈ x, a = c) ∧ Runs mask q ∧ p = x ++ q := by
  constructor
  · intro h
    generalize hm : c :: mask = m at h
    induction h with
    | done => exact ⟨[], [], by simp, .done, rfl⟩
    | same _ ih =>
      obtain ⟨rfl, rfl⟩ := List.cons.inj hm
      obtain ⟨x, q, hx, hq, rfl⟩ := ih rfl
      exact ⟨c :: x, q, List.forall_mem_cons.mpr ⟨rfl, hx⟩, hq, rfl⟩
    | next h _ =>
      obtain ⟨rfl, rfl⟩ := List.cons.inj hm
      exact ⟨[], _, by simp, h, rfl⟩
  · rintro ⟨x, q, hx, hq, rfl⟩
    induction x with
    | nil => exact .next hq
    | cons a x ih =>
      obtain ⟨rfl, hx⟩ := List.forall_mem_cons.mp hx
      exact .same (ih hx)

theorem runs_nil_iff : Runs [] p ↔ p = [] := by
  constructor
  · rintro ⟨⟩
    rfl
  · rintro rfl
    exact .done

end Runs

section Complete

variable {left right : Bool} {str mask : List Byte}

def trimEnds (left right : Bool) (str mask : List Byte) : List Byte :=
  mask.foldl (fun str c => stripEnds left right (· == c) str) str

theorem trimEnds_spec (left right : Bool) (str mask : List Byte) :
    ∃ x y, str = x ++ trimEnds left right str mask ++ y ∧ Cut left right x y ∧
      Runs mask x ∧ Runs mask y.reverse := by
  induction mask generalizing str with
  | nil => exact ⟨[], [], by simp [trimEnds], ⟨fun _ => rfl, fun _ => rfl⟩, .done, .done⟩
  | cons c mask ih =>
    obtain ⟨x, y, hstr, hcut, hx, hy⟩ := stripEnds_spec left right (· == c) str
    obtain ⟨x', y', hstr', hcut', hx', hy'⟩ := ih (stripEnds left right (· == c) str)
    refine ⟨x ++ x', y' ++ y, ?_, ⟨fun h => ?_, fun h => ?_⟩, ?_, ?_⟩
    · calc
        str = x ++ stripEnds left right (· == c) str ++ y := hstr
        _ = x ++ (x' ++ trimEnds left right str (c :: mask) ++ y') ++ y := by
          conv_lhs => rw [hstr']
          rfl
        _ = x ++ x' ++ trimEnds left right str (c :: mask) ++ (y' ++ y) := by
          simp only [List.append_assoc]
    · rw [hcut.front h, hcut'.front h, List.append_nil]
    · rw [hcut.back h, hcut'.back h, List.append_nil]
    · exact runs_cons_iff.mpr ⟨x, x', fun a ha => eq_of_beq (hx a ha), hx', rfl⟩
    · refine runs_cons_iff.mpr ⟨y.reverse, y'.reverse, fun a ha => ?_, hy', List.reverse_append⟩
      exact eq_of_beq (hy a (List.mem_reverse.mp ha))

theorem trimEnds_sublist {x y t : List Byte} (hcut : Cut left right x y) (hx : Runs mask x)
    (hy : Runs mask y.reverse) (hstr : str.Sublist (x ++ t ++ y)) :
    (trimEnds left right str mask).Sublist t := by
  induction mask generalizing str x y with
  | nil =>
    rw [runs_nil_iff] at hx hy
    rw [hx, List.reverse_eq_nil_iff.mp hy, List.nil_append, List.append_nil] at hstr
    exact hstr
  | cons c mask ih =>
    obtain ⟨u, x', hu, hx', rfl⟩ := runs_cons_iff.mp hx
    obtain ⟨v, y', hv, hy', hyv⟩ := runs_cons_iff.mp hy
    obtain rfl := List.reverse_eq_iff.mp hyv
    -- what is left of the text: a part of the runs of `c`, and a text between them
    have hsplit : str.Sublist (u ++ (x' ++ t ++ y'.reverse) ++ v.reverse) := by
      simpa using hstr
    obtain ⟨s, b, rfl, hs, hb⟩ := List.sublist_append_iff.mp hsplit
    obtain ⟨a, m, rfl, ha, hm⟩ := List.sublist_append_iff.mp hs
    have hfront (h : left = false) : u = [] ∧ x' = [] := List.append_eq_nil_iff.mp (hcut.front h)
    have hback (h : right = false) : v = [] ∧ y' = [] := by
      simpa [and_comm] using hcut.back h
    have hab : Cut left right a b :=
      ⟨fun h => List.sublist_nil.mp ((hfront h).1 ▸ ha),
        fun h => List.sublist_nil.mp (by simpa [(hback h).1] using hb)⟩
    have hstrip : stripEnds left right (· == c) (a ++ m ++ b) =
        stripEnds left right (· == c) m :=
      stripEnds_append hab (fun e he => by simp [hu e (ha.subset he)])
        (fun e he => by simp [hv e (List.mem_reverse.mp (hb.subset he))]) m
    have hrest : Cut left right x' y'.reverse :=
      ⟨fun h => (hfront h).2, fun h => by rw [(hback h).2, List.reverse_nil]⟩
    refine ih hrest hx' (by rwa [List.reverse_reverse]) ?_
    dsimp only
    rw [hstrip]
    exact (stripEnds_sublist left right _ m).trans hm

/-- Trimming takes the mask characters from the ends exactly when what has to go comes in the
order of the mask. -/
theorem trimEnds_eq_iff :
    trimEnds left right str mask = stripEnds left right (· ∈ mask) str ↔
      ∃ x y, str = x ++ stripEnds left right (· ∈ mask) str ++ y ∧ Cut left right x y ∧
        Runs mask x ∧ Runs mask y.reverse := by
  obtain ⟨x, y, hstr, hcut, hx, hy⟩ := trimEnds_spec left right str mask
  constructor
  · intro h
    rw [← h]
    exact ⟨x, y, hstr, hcut, hx, hy⟩
  · rintro ⟨x', y', hstr', hcut', hx', hy'⟩
    have hsub : str.Sublist (x' ++ stripEnds left right (· ∈ mask) str ++ y') :=
      hstr'.subst (motive := fun s => str.Sublist s) (List.Sublist.refl str)
    refine (trimEnds_sublist hcut' hx' hy' hsub).antisymm ?_
    have hstrip := stripEnds_append hcut (p := (· ∈ mask)) (by simpa using hx.mem)
      (by simpa using hy.mem) (trimEnds left right str mask)
    rw [← hstr] at hstrip
    rw [hstrip]
    exact stripEnds_sublist left right _ _

theorem trimEnds_idem
    (h : trimEnds left right str mask = stripEnds left right (· ∈ mask) str) :
    stripEnds left right (· ∈ mask) (trimEnds left right str mask) =
        trimEnds left right str mask ∧
      trimEnds left right (trimEnds left right str mask) mask =
        trimEnds left right str mask := by
  have hstrip : stripEnds left right (· ∈ mask) (trimEnds left right str mask) =
      trimEnds left right str mask := by
    rw [h, stripEnds_idem]
  refine ⟨hstrip, ?_⟩
  conv_rhs => rw [← hstrip]
  exact trimEnds_eq_iff.mpr ⟨[], [], by simp [hstrip], ⟨fun _ => rfl, fun _ => rfl⟩, .done, .done⟩

variable (str mask : List Byte)

theorem trimEnds_nil (left right : Bool) : trimEnds left right [] mask = [] := by
  obtain ⟨x, y, h, -⟩ := trimEnds_spec left right [] mask
  exact (List.append_eq_nil_iff.mp (List.append_eq_nil_iff.mp h.symm).1).2

theorem ltrim_eq_trimEnds : ltrim str mask = trimEnds true false str mask := by
  rw [ltrim, show eraseFront = fun str c => stripEnds true false (· == c) str from
    funext₂ eraseFront_eq]
  split
  · next h => rw [h, trimEnds_nil]
  · rfl

theorem rtrim_eq_trimEnds : rtrim str mask = trimEnds false true str mask := by
  rw [rtrim, show eraseBack = fun str c => stripEnds false true (· == c) str from
    funext₂ eraseBack_eq]
  split
  · next h => rw [h, trimEnds_nil]
  · rfl

theorem trim_eq_trimEnds : trim str mask = trimEnds true true str mask := by
  rw [trim]
  simp only [eraseFront_eq, eraseBack_eq]
  split
  · next h => rw [h, trimEnds_nil]
  · rfl

theorem trimEnds_front_iff :
    trimEnds true false str mask = str.dropWhile (· ∈ mask) ↔
      Runs mask (str.takeWhile (· ∈ mask)) := by
  constructor
  · intro h
    obtain ⟨x, y, hstr, hcut, hx, -⟩ := trimEnds_eq_iff.mp h
    rw [hcut.back rfl, List.append_nil] at hstr
    have hx' : x = str.takeWhile (· ∈ mask) :=
      List.append_cancel_right (hstr.symm.trans List.takeWhile_append_dropWhile.symm)
    rwa [← hx']
  · intro h
    refine trimEnds_eq_iff.mpr ⟨_, [], ?_, ⟨nofun, fun _ => rfl⟩, h, .done⟩
    rw [List.append_nil]
    exact List.takeWhile_append_dropWhile.symm

theorem trimEnds_back_iff :
    trimEnds false true str mask = str.rdropWhile (· ∈ mask) ↔
      Runs mask (str.rtakeWhile (· ∈ mask)).reverse := by
  constructor
  · intro h
    obtain ⟨x, y, hstr, hcut, -, hy⟩ := trimEnds_eq_iff.mp h
    rw [hcut.front rfl, List.nil_append] at hstr
    have hy' : y = str.rtakeWhile (· ∈ mask) :=
      List.append_cancel_left (hstr.symm.trans List.rdropWhile_append_rtakeWhile.symm)
    rwa [← hy']
  · intro h
    refine trimEnds_eq_iff.mpr ⟨[], _, ?_, ⟨fun _ => rfl, nofun⟩, .done, h⟩
    rw [List.nil_append]
    exact List.rdropWhile_append_rtakeWhile.symm

theorem trimEnds_both_iff :
    trimEnds true true str mask = (str.dropWhile (· ∈ mask)).rdropWhile (· ∈ mask) ↔
      ∃ x y, str = x ++ (str.dropWhile (· ∈ mask)).rdropWhile (· ∈ mask) ++ y ∧
        Runs mask x ∧ Runs mask y.reverse := by
  refine trimEnds_eq_iff.trans (exists_congr fun x => exists_congr fun y => and_congr_right ?_)
  exact fun _ => and_iff_right ⟨nofun, nofun⟩

/-- The texts that are trimmed completely: from the left those that begin with mask characters in
the order of the mask, from the right those that end with them in the other order, and from both
sides those that do so around what has to be left. -/
theorem trim_complete_iff :
    (ltrim str mask = str.dropWhile (· ∈ mask) ∧
        (∀ c ∈ (ltrim str mask).head?, c ∉ mask) ∧
        ltrim (ltrim str mask) mask = ltrim str mask ↔
      Runs mask (str.takeWhile (· ∈ mask))) ∧
    (rtrim str mask = str.rdropWhile (· ∈ mask) ∧
        (∀ c ∈ (rtrim str mask).getLast?, c ∉ mask) ∧
        rtrim (rtrim str mask) mask = rtrim str mask ↔
      Runs mask (str.rtakeWhile (· ∈ mask)).reverse) ∧
    (trim str mask = (str.dropWhile (· ∈ mask)).rdropWhile (· ∈ mask) ∧
        (∀ c ∈ (trim str mask).head?, c ∉ mask) ∧ (∀ c ∈ (trim str mask).getLast?, c ∉ mask) ∧
        trim (trim str mask) mask = trim str mask ↔
      ∃ x y, str = x ++ (str.dropWhile (· ∈ mask)).rdropWhile (· ∈ mask) ++ y ∧
        Runs mask x ∧ Runs mask y.reverse) := by
  have hleft := trimEnds_front_iff str mask
  have hright := trimEnds_back_iff str mask
  have hboth := trimEnds_both_iff str mask
  simp only [ltrim_eq_trimEnds, rtrim_eq_trimEnds, trim_eq_trimEnds]
  refine ⟨⟨fun h => hleft.mp h.1, fun h => ?_⟩, ⟨fun h => hright.mp h.1, fun h => ?_⟩,
    ⟨fun h => hboth.mp h.1, fun h => ?_⟩⟩
  · obtain ⟨hstrip, hidem⟩ := trimEnds_idem (hleft.mpr h)
    exact ⟨hleft.mpr h, by simpa using not_of_mem_head? hstrip, hidem⟩
  · obtain ⟨hstrip, hidem⟩ := trimEnds_idem (hright.mpr h)
    exact ⟨hright.mpr h, by simpa using not_of_mem_getLast? hstrip, hidem⟩
  · obtain ⟨hstrip, hidem⟩ := trimEnds_idem (hboth.mpr h)
    exact ⟨hboth.mpr h, by simpa using not_of_mem_head? hstrip,
      by simpa using not_of_mem_getLast? hstrip, hidem⟩

/-- A tab in front of a blank: the blanks are taken first, and none stands at the end. -/
theorem trim_leaves_blank :
    trim [0x09, 0x20, 0x61] defaultMask = [0x20, 0x61] ∧
      trim [0x20, 0x61] defaultMask = [0x61] := by
  decide

end Complete

end Plain
