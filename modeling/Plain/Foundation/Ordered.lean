import Mathlib.Data.List.Sort

/-! # Lists ordered by a key

A list is kept in the order of a key that its elements have outside of it. A new element goes
behind those with the same key, as into a multiset.
-/

namespace Plain

variable {α κ : Type*} [LinearOrder κ] {key : α → κ} {a : α} {l : List α}

/-- Insertion behind the elements with the same key. -/
def insertBy (key : α → κ) (a : α) (l : List α) : List α :=
  l.orderedInsert (fun a b => key a < key b) a

/-- The elements stand in the order of their keys. -/
def OrderedBy (key : α → κ) (l : List α) : Prop := l.Pairwise fun a b => key a ≤ key b

theorem perm_insertBy : (insertBy key a l).Perm (a :: l) := List.perm_orderedInsert _ a l

theorem orderedBy_nil : OrderedBy key [] := .nil

theorem OrderedBy.sublist {l' : List α} (h : OrderedBy key l) (hl : l'.Sublist l) :
    OrderedBy key l' :=
  List.Pairwise.sublist hl h

theorem OrderedBy.le_of_mem_cons (h : OrderedBy key (a :: l)) {b : α} (hb : b ∈ a :: l) :
    key a ≤ key b := by
  rcases List.mem_cons.mp hb with rfl | hb
  · exact le_rfl
  · exact List.rel_of_pairwise_cons h hb

theorem OrderedBy.insertBy (h : OrderedBy key l) : OrderedBy key (insertBy key a l) := by
  induction l with
  | nil => exact List.pairwise_singleton _ a
  | cons b l ih =>
    by_cases hab : key a < key b
    · rw [Plain.insertBy, List.orderedInsert_cons, if_pos hab]
      exact List.pairwise_cons.mpr ⟨fun c hc => hab.le.trans (h.le_of_mem_cons hc), h⟩
    · rw [Plain.insertBy, List.orderedInsert_cons, if_neg hab]
      refine List.pairwise_cons.mpr ⟨fun c hc => ?_, ih (List.Pairwise.of_cons h)⟩
      rcases List.mem_cons.mp (perm_insertBy.mem_iff.mp hc) with rfl | hc
      · exact not_lt.mp hab
      · exact List.rel_of_pairwise_cons h hc

theorem OrderedBy.congr {key' : α → κ} (h : OrderedBy key l) (hkey : ∀ a ∈ l, key' a = key a) :
    OrderedBy key' l :=
  List.Pairwise.imp_of_mem (fun ha hb hab => by rwa [hkey _ ha, hkey _ hb]) h

end Plain
