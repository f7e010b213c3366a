import KineticAlphabet.Proofs.Sorting
import Mathlib.Data.Prod.Lex
import Mathlib.Data.String.Basic
import Mathlib.Order.WithBot
/-!
What a sort does, said by ranks. Each method ranks pictographs in a linear order: first by what it
looks at, then by the alphabet. A list that is in order and has the pictographs of each rank as
another list has them is determined by that list, and the sort makes it. So a sort done twice is
done once, a sort by the alphabet alone leaves no trace behind a later sort, and the beats so far
count only where ranks depend on them.
-/
namespace KineticAlphabet

section

variable {α κ : Type} [LinearOrder κ] {key : α → κ} {s t : List α}

theorem mem_iff_of_filter_eq
    (h : ∀ k, s.filter (fun a => key a = k) = t.filter (fun a => key a = k)) (a : α) :
    a ∈ s ↔ a ∈ t := by
  have hclass := congrArg (a ∈ ·) (h (key a))
  simpa using hclass

/-- A list in order is determined by what it holds of each key, in which order. -/
theorem eq_of_filter_eq (hs : s.Pairwise fun a b => key a ≤ key b)
    (ht : t.Pairwise fun a b => key a ≤ key b)
    (h : ∀ k, s.filter (fun a => key a = k) = t.filter (fun a => key a = k)) : s = t := by
  induction s generalizing t with
  | nil =>
    refine (List.eq_nil_iff_forall_not_mem.mpr fun b hb => ?_).symm
    exact List.not_mem_nil ((mem_iff_of_filter_eq h b).mpr hb)
  | cons a s ih =>
    cases t with
    | nil => exact absurd ((mem_iff_of_filter_eq h a).mp List.mem_cons_self) List.not_mem_nil
    | cons b t =>
      have hleast : ∀ {c : α} {l : List α}, (c :: l).Pairwise (fun a b => key a ≤ key b) →
          ∀ d ∈ c :: l, key c ≤ key d := by
        intro c l hl d hd
        rcases List.mem_cons.mp hd with rfl | hd
        · exact le_refl _
        · exact (List.pairwise_cons.mp hl).1 d hd
      have hab : key b = key a := le_antisymm
        (hleast ht a ((mem_iff_of_filter_eq h a).mp List.mem_cons_self))
        (hleast hs b ((mem_iff_of_filter_eq h b).mpr List.mem_cons_self))
      -- both lists begin with the first element of the least key
      have hfirst := h (key a)
      rw [List.filter_cons_of_pos (by simp), List.filter_cons_of_pos (by simpa using hab)] at hfirst
      obtain rfl : a = b := (List.cons.inj hfirst).1
      refine congrArg (a :: ·) (ih hs.tail ht.tail fun k => ?_)
      have hk := h k
      by_cases hak : key a = k
      · rw [List.filter_cons_of_pos (by simpa using hak),
          List.filter_cons_of_pos (by simpa using hak)] at hk
        exact (List.cons.inj hk).2
      · rwa [List.filter_cons_of_neg (by simpa using hak),
          List.filter_cons_of_neg (by simpa using hak)] at hk

end

namespace Selection

variable (context : List Beat) (method : SortMethod) (ps : List Pictograph)

/-- The rank of a label. None is below all texts. -/
def labelRank (label : Option String) : WithBot String := label.elim ⊥ WithBot.some

/-- The rank of a pictograph in the alphabet. What is no letter is above all letters. -/
def letterRank (p : Pictograph) : WithTop Nat :=
  (Letter.ofText? p.letterText).elim ⊤ fun l => WithTop.some l.order

/-- The rank of a pictograph under a method: whether it goes without reversals, the label, and the
place in the alphabet, of which the first two only count where the method looks at them. -/
def rank : SortMethod → Pictograph → Bool ×ₗ WithBot String ×ₗ WithTop Nat
  | .type, p => toLex (false, toLex (⊥, letterRank p))
  | .endPosition, p => toLex (false, toLex (labelRank p.endLabel?, letterRank p))
  | .startPosition, p => toLex (false, toLex (labelRank p.startLabel?, letterRank p))
  | .reversals, p => toLex (!hasReversals context p, toLex (⊥, letterRank p))

theorem compareLabels_compares (a b : Option String) :
    (compareLabels a b).Compares (labelRank a) (labelRank b) := by
  cases a with
  | none =>
    cases b with
    | none => exact rfl
    | some t => exact WithBot.bot_lt_coe t
  | some s =>
    cases b with
    | none => exact WithBot.bot_lt_coe s
    | some t => exact WithBot.coe_strictMono.compares.mpr ((compare_iff s t).mp rfl)

theorem isLE_compareLetters_iff (a b : Pictograph) :
    (compareLetters a b).isLE = true ↔ letterRank a ≤ letterRank b := by
  have hlt : ∀ l : Letter, l.order < Letter.all.length :=
    fun l => List.idxOf_lt_length_iff.mpr l.mem_all
  unfold letterRank
  cases ha : Letter.ofText? a.letterText with
  | none =>
    cases hb : Letter.ofText? b.letterText with
    | none => simp [compareLetters, ha, hb]
    | some l' => simp [compareLetters, ha, hb, Nat.isLE_compare, hlt l']
  | some l =>
    cases hb : Letter.ofText? b.letterText with
    | none => simp [compareLetters, ha, hb, Nat.isLE_compare, (hlt l).le]
    | some l' => simp [compareLetters, ha, hb, Nat.isLE_compare]

/-- A pictograph may stand in front of those that do not rank below it. -/
theorem before_iff (a b : Pictograph) :
    before context method a b = true ↔ rank context method a ≤ rank context method b := by
  rw [before, Ordering.isLE_then_iff_or, isLE_compareLetters_iff]
  cases method with
  | type => simp [comparePrimary, rank, Prod.Lex.toLex_le_toLex]
  | endPosition =>
    have h := compareLabels_compares a.endLabel? b.endLabel?
    simp [comparePrimary, rank, Prod.Lex.toLex_le_toLex, h.eq_lt, h.eq_eq]
  | startPosition =>
    have h := compareLabels_compares a.startLabel? b.startLabel?
    simp [comparePrimary, rank, Prod.Lex.toLex_le_toLex, h.eq_lt, h.eq_eq]
  | reversals =>
    have hlt : compare false true = .lt := rfl
    cases ha : hasReversals context a <;> cases hb : hasReversals context b <;>
      simp [comparePrimary, rank, Prod.Lex.toLex_le_toLex, ha, hb, hlt]

theorem pairwise_rank_sort : (sort context ps method).Pairwise fun a b =>
    rank context method a ≤ rank context method b :=
  (pairwise_sort context method ps).imp fun {a b} => (before_iff context method a b).mp

/-- What is in order already stays as it is. -/
theorem sort_eq_self {ps : List Pictograph}
    (h : ps.Pairwise fun a b => rank context method a ≤ rank context method b) :
    sort context ps method = ps := by
  rw [sort_eq]
  exact List.mergeSort_of_pairwise (h.imp fun {a b} => (before_iff context method a b).mpr)

/-- A list of pictographs of one rank stays as it is. -/
theorem sort_of_rank_eq {ps : List Pictograph}
    (h : ∀ a ∈ ps, ∀ b ∈ ps, rank context method a = rank context method b) :
    sort context ps method = ps :=
  sort_eq_self context method (List.pairwise_of_forall_mem_list fun a ha b hb => (h a ha b hb).le)

/-- Pictographs of one rank stay in their order. -/
theorem filter_rank_sort (k : Bool ×ₗ WithBot String ×ₗ WithTop Nat) :
    (sort context ps method).filter (fun p => rank context method p = k) =
      ps.filter fun p => rank context method p = k := by
  rw [filter_sort]
  refine sort_of_rank_eq context method fun a ha b hb => ?_
  rw [List.mem_filter, decide_eq_true_eq] at ha hb
  exact ha.2.trans hb.2.symm

/-- The sort is the only list that is in order and has the pictographs of each rank in theirs. -/
theorem eq_sort_iff {qs : List Pictograph} : qs = sort context ps method ↔
    (qs.Pairwise fun a b => rank context method a ≤ rank context method b) ∧
    ∀ k, qs.filter (fun p => rank context method p = k) =
      ps.filter fun p => rank context method p = k := by
  constructor
  · rintro rfl
    exact ⟨pairwise_rank_sort context method ps, filter_rank_sort context method ps⟩
  · rintro ⟨horder, hranks⟩
    refine eq_of_filter_eq horder (pairwise_rank_sort context method ps) fun k => ?_
    rw [hranks, filter_rank_sort]

/-- The place in the alphabet is a part of every rank. -/
theorem rank_type_eq {context' : List Beat} {a b : Pictograph}
    (h : rank context method a = rank context method b) :
    rank context' .type a = rank context' .type b := by
  have hletters : letterRank a = letterRank b := by
    cases method <;> simp_all [rank]
  rw [rank, rank, hletters]

/-- A sort by the alphabet alone leaves no trace behind a later sort. -/
theorem sort_sort_type (context' : List Beat) :
    sort context (sort context' ps .type) method = sort context ps method := by
  refine (eq_sort_iff context method ps).mpr ⟨pairwise_rank_sort context method _, fun k => ?_⟩
  rw [filter_rank_sort, filter_sort]
  refine sort_of_rank_eq context' .type fun a ha b hb => rank_type_eq context method ?_
  rw [List.mem_filter, decide_eq_true_eq] at ha hb
  exact ha.2.trans hb.2.symm

/-- Only the ranks by reversals depend on the beats so far. -/
theorem rank_eq_of_ne {method : SortMethod} (h : method ≠ .reversals) (context' : List Beat) :
    rank context' method = rank context method := by
  cases method with
  | reversals => exact absurd rfl h
  | type | endPosition | startPosition => rfl

/-- A sort has the pictographs that it is given, in the order of their ranks, and those of one rank
in the order in which they were given. So a second sort by the same method changes nothing, nor does
a sort by type in front of any sort, and the beats so far only count where reversals are asked for.
-/
theorem sort_ranks :
    (sort context ps method).Perm ps ∧
    ((sort context ps method).Pairwise fun a b =>
      rank context method a ≤ rank context method b) ∧
    (∀ k, (sort context ps method).filter (fun p => rank context method p = k) =
      ps.filter fun p => rank context method p = k) ∧
    sort context (sort context ps method) method = sort context ps method ∧
    (∀ context', sort context (sort context' ps .type) method = sort context ps method) ∧
    (method ≠ .reversals →
      ∀ context', sort context' ps method = sort context ps method) := by
  have horder := pairwise_rank_sort context method ps
  refine ⟨sort_perm context method ps, horder, filter_rank_sort context method ps,
    sort_eq_self context method horder, sort_sort_type context method ps, fun h context' => ?_⟩
  rw [eq_sort_iff, ← rank_eq_of_ne context h context']
  exact (eq_sort_iff context' method ps).mp rfl

/-- Blue goes on as it spun, and then against it. -/
def onAndBack : List Pictograph :=
  [.make "on" ⟨.shift .pro .e .s .inward, .staticAt .w .inward⟩,
    .make "back" ⟨.shift .anti .e .s .inward, .staticAt .w .inward⟩]

def spun : List Beat := [{ Beat.empty 1 with motions := ⟨some (.shift .pro .n .e .inward), none⟩ }]

/-- Behind that beat a sort by reversals puts them the other way round, one by the end position does
not. -/
theorem sort_ranks_onAndBack : SortMethod.endPosition ≠ .reversals ∧
    sort spun onAndBack .endPosition = sort [] onAndBack .endPosition ∧
    sort spun onAndBack .reversals ≠ sort [] onAndBack .reversals := by
  have hmethod : SortMethod.endPosition ≠ .reversals := by decide
  have hinorder : onAndBack.Pairwise fun a b => before [] .reversals a b = true := by
    decide +kernel
  have hsame : sort [] onAndBack .reversals = onAndBack :=
    (sort_eq [] .reversals onAndBack).trans (List.mergeSort_of_pairwise hinorder)
  have hback : ¬ onAndBack.Pairwise fun a b => before spun .reversals a b = true := by
    decide +kernel
  refine ⟨hmethod, (sort_ranks [] .endPosition onAndBack).2.2.2.2.2 hmethod spun, fun h => hback ?_⟩
  rw [hsame] at h
  have horder := (sort_ranks spun .reversals onAndBack).2.1
  rw [h] at horder
  exact horder.imp fun {a b} => (before_iff spun .reversals a b).mpr

end Selection

end KineticAlphabet
