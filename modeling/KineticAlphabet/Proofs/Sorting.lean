import KineticAlphabet.Selection
/-!
Sorting a selection. Every method compares pictographs by a key and then by the alphabet, which is a
total order on them up to ties, and the sort is stable; that it looks counts up in a table makes no
difference. A stable sort puts one more pictograph in front of a list right behind those that must
stand before it, so it sorts each part of a list as it sorts the whole.
-/
namespace KineticAlphabet

section

variable {α : Type} {le : α → α → Bool}

/-- A list that has all elements of a class in front falls into those and the others. -/
theorem filter_append_filter_not {p : α → Bool} {s : List α}
    (h : s.Pairwise fun a b => p b = true → p a = true) :
    s.filter p ++ s.filter (fun a => !p a) = s := by
  induction s with
  | nil => rfl
  | cons a s ih =>
    rw [List.pairwise_cons] at h
    by_cases ha : p a
    · rw [List.filter_cons_of_pos ha, List.filter_cons_of_neg (by simpa using ha), List.cons_append,
        ih h.2]
    · have hnone : s.filter p = [] :=
        List.filter_eq_nil_iff.mpr fun b hb hpb => ha (h.1 b hb hpb)
      have hall : s.filter (fun a => !p a) = s :=
        List.filter_eq_self.mpr fun b hb => by simpa using fun hpb => ha (h.1 b hb hpb)
      rw [List.filter_cons_of_neg ha, List.filter_cons_of_pos (by simpa using ha), hnone, hall,
        List.nil_append]

/-- In a sorted list those that must stand before an element stand in front. -/
theorem filter_append_filter_of_sorted (htrans : ∀ a b c, le a b → le b c → le a c) {s : List α}
    (hs : s.Pairwise fun a b => le a b = true) (a : α) :
    s.filter (fun b => !le a b) ++ s.filter (fun b => le a b) = s := by
  have hfront : s.Pairwise fun b c => (!le a c) = true → (!le a b) = true := by
    refine hs.imp fun {b c} hbc hac => ?_
    rw [Bool.not_eq_true'] at hac ⊢
    exact Bool.eq_false_iff.mpr fun hab => Bool.eq_false_iff.mp hac (htrans a b c hab hbc)
  simpa using filter_append_filter_not hfront

variable (htrans : ∀ a b c, le a b → le b c → le a c) (htotal : ∀ a b, le a b || le b a)

include htrans htotal

/-- A stable sort puts one more element in front right behind those that must stand before it. -/
theorem mergeSort_cons_eq (a : α) (l : List α) :
    (a :: l).mergeSort le = (l.mergeSort le).filter (fun b => !le a b) ++
      a :: (l.mergeSort le).filter (fun b => le a b) := by
  obtain ⟨front, back, hcons, hl, hfront⟩ := List.mergeSort_cons htrans htotal a l
  have hsorted := List.pairwise_mergeSort htrans htotal (a :: l)
  rw [hcons] at hsorted
  have hback : ∀ b ∈ back, le a b = true :=
    (List.pairwise_cons.mp (List.pairwise_append.mp hsorted).2.1).1
  have hfilter : (front ++ back).filter (fun b => !le a b) = front := by
    rw [List.filter_append, List.filter_eq_self.mpr hfront,
      List.filter_eq_nil_iff.mpr fun b hb => by simpa using hback b hb, List.append_nil]
  have hfilter' : (front ++ back).filter (fun b => le a b) = back := by
    rw [List.filter_append, List.filter_eq_nil_iff.mpr fun b hb => by simpa using hfront b hb,
      List.filter_eq_self.mpr hback, List.nil_append]
  rw [hcons, hl, hfilter, hfilter']

/-- A stable sort sorts a part of a list as it sorts the whole. -/
theorem filter_mergeSort (p : α → Bool) (l : List α) :
    (l.mergeSort le).filter p = (l.filter p).mergeSort le := by
  induction l with
  | nil => simp
  | cons a l ih =>
    rw [mergeSort_cons_eq htrans htotal, List.filter_append]
    by_cases ha : p a
    · rw [List.filter_cons_of_pos ha, List.filter_cons_of_pos ha, mergeSort_cons_eq htrans htotal,
        ← ih]
      simp only [List.filter_filter, Bool.and_comm]
    · have hsorted := List.pairwise_mergeSort htrans htotal l
      rw [List.filter_cons_of_neg ha, List.filter_cons_of_neg ha, ← ih, ← List.filter_append,
        filter_append_filter_of_sorted htrans hsorted]

end

namespace Selection

open Std (TransCmp OrientedCmp)

variable (context : List Beat) (method : SortMethod) (ps : List Pictograph)

/-- The order of a method for pictographs alone, as far as it goes without the alphabet. -/
def comparePrimary (a b : Pictograph) : Ordering :=
  match method with
  | .type => .eq
  | .endPosition => compareLabels a.endLabel? b.endLabel?
  | .startPosition => compareLabels a.startLabel? b.startLabel?
  | .reversals => compare (hasReversals context b) (hasReversals context a)

def before (a b : Pictograph) : Bool :=
  ((comparePrimary context method a b).then (compareLetters a b)).isLE

section Table

variable {context method ps} {a b : Pictograph × Nat}

/-- A pictograph finds its own count at its place in the table. -/
theorem getD_reversalCounts (h : a ∈ ps.zipIdx) :
    (reversalCounts context ps).getD a.2 0 = countReversals a.1.motions context := by
  have hplace : ps[a.2]? = some a.1 := List.mem_zipIdx_iff_getElem?.mp h
  rw [reversalCounts, List.getD_eq_getElem?_getD, List.getElem?_map, hplace]
  rfl

/-- So the table orders pictographs as their own counts do, wherever they stand. -/
theorem compareEntries_eq (ha : a ∈ ps.zipIdx) (hb : b ∈ ps.zipIdx) :
    compareEntries (sortCounts context ps method) method a b =
      comparePrimary context method a.1 b.1 := by
  cases method with
  | type | endPosition | startPosition => rfl
  | reversals =>
    simp only [compareEntries, sortCounts, getD_reversalCounts ha, getD_reversalCounts hb,
      comparePrimary, hasReversals]

end Table

/-- The sort with its table sorts the pictographs by themselves. -/
theorem sort_eq : sort context ps method = ps.mergeSort (before context method) := by
  have hbefore : ∀ a ∈ ps.zipIdx, ∀ b ∈ ps.zipIdx,
      ((compareEntries (sortCounts context ps method) method a b).then
        (compareLetters a.1 b.1)).isLE = before context method a.1 b.1 := by
    intro a ha b hb
    rw [compareEntries_eq ha hb, before]
  rw [sort, List.map_mergeSort hbefore, List.zipIdx_map_fst]

/-- A filter of a list together with its table is a filter of the list. -/
theorem inBuckets_eq (buckets : List ReversalBucket) : inBuckets context buckets ps =
    ps.filter fun p => buckets.contains (.ofCount (countReversals p.motions context)) := by
  have hzip : ps.zip (reversalCounts context ps) =
      ps.map fun p => (p, countReversals p.motions context) :=
    List.map_prod_left_eq_zip.symm
  rw [inBuckets, hzip, List.filter_map, List.map_map]
  exact List.map_id _

instance : TransCmp compareLetters :=
  inferInstanceAs (TransCmp (compareOn fun p : Pictograph =>
    ((Letter.ofText? p.letterText).map Letter.order).getD Letter.all.length))

instance : TransCmp (comparePrimary context method) :=
  match method with
  | .type => { eq_swap := rfl, isLE_trans := fun _ _ => rfl }
  | .endPosition => inferInstanceAs (TransCmp (compareOn Pictograph.endLabel?))
  | .startPosition => inferInstanceAs (TransCmp (compareOn Pictograph.startLabel?))
  | .reversals =>
    have hcount : TransCmp (compareOn fun p => hasReversals context p) := inferInstance
    hcount.opposite

/-- How a method orders two pictographs, the alphabet included. -/
def compareBy : Pictograph → Pictograph → Ordering :=
  compareLex (comparePrimary context method) compareLetters

instance : TransCmp (compareBy context method) :=
  inferInstanceAs (TransCmp (compareLex (comparePrimary context method) compareLetters))

theorem before_eq (a b : Pictograph) :
    before context method a b = (compareBy context method a b).isLE := rfl

theorem before_trans (a b c : Pictograph) (hab : before context method a b)
    (hbc : before context method b c) : before context method a c := by
  rw [before_eq] at hab hbc ⊢
  exact TransCmp.isLE_trans hab hbc

theorem before_total (a b : Pictograph) :
    before context method a b || before context method b a := by
  have hswap : compareBy context method b a = (compareBy context method a b).swap :=
    OrientedCmp.eq_swap
  rw [before_eq, before_eq, hswap]
  cases compareBy context method a b <;> rfl

theorem sort_perm : (sort context ps method).Perm ps :=
  sort_eq context method ps ▸ List.mergeSort_perm ps _

theorem pairwise_sort :
    (sort context ps method).Pairwise fun a b => before context method a b = true := by
  rw [sort_eq]
  exact List.pairwise_mergeSort (before_trans context method) (before_total context method) ps

/-- Sorting the pictographs that pass a test is taking them from the sorted ones. -/
theorem filter_sort (p : Pictograph → Bool) :
    (sort context ps method).filter p = sort context (ps.filter p) method := by
  rw [sort_eq, sort_eq]
  exact filter_mergeSort (before_trans context method) (before_total context method) p ps

end Selection

end KineticAlphabet
