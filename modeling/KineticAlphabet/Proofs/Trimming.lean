import KineticAlphabet.Text.Blank
import Mathlib.Data.List.Basic
/-!
Texts up to what their readers pass over. Only the capitals A to Z have small letters of their own,
so a reader that asks for something else of a character may ask before or after letters are made
small. Trimming takes off blanks at both ends until there are none. The words of a text are said by
a grammar: separators, a run of other characters up to a separator or the end, and further words.
-/
namespace KineticAlphabet.Text

section Case

def small (cs : List Char) : String := String.ofList (cs.map Char.toLower)

theorem map_toLower_of_small {cs : List Char} {s : String} (h : small cs = s) :
    cs.map Char.toLower = s.toList := by
  rw [← h, small, String.toList_ofList]

theorem isUpper_iff {c : Char} : c.isUpper = true ↔ 65 ≤ c.toNat ∧ c.toNat ≤ 90 := by
  change decide (c.val ≥ 65 ∧ c.val ≤ 90) = true ↔ _
  simp [UInt32.le_iff_toNat_le, ← Char.toNat_val]

theorem toLower_of_not_upper {c : Char} (h : ¬ c.isUpper = true) : c.toLower = c := by
  rw [isUpper_iff] at h
  exact dif_neg h

/-- What does not tell the capitals A to Z from their small letters does not tell any character from
its small letter. -/
theorem apply_toLower {α : Type} {f : Char → α}
    (h : ∀ n < 26, f (Char.ofNat (65 + n)).toLower = f (Char.ofNat (65 + n))) (c : Char) :
    f c.toLower = f c := by
  by_cases hc : c.isUpper = true
  · rw [isUpper_iff] at hc
    have hn := h (c.toNat - 65) (by omega)
    rwa [Nat.add_sub_cancel' hc.1, Char.ofNat_toNat] at hn
  · rw [toLower_of_not_upper hc]

theorem isBlank_toLower (c : Char) : isBlank c.toLower = isBlank c := apply_toLower (by decide) c

theorem isDigit_iff {c : Char} : c.isDigit = true ↔ 48 ≤ c.toNat ∧ c.toNat ≤ 57 := by
  simp [Char.isDigit, UInt32.le_iff_toNat_le, ← Char.toNat_val]

theorem isLower_iff {c : Char} : c.isLower = true ↔ 97 ≤ c.toNat ∧ c.toNat ≤ 122 := by
  change (decide (c.val ≥ 97) && decide (c.val ≤ 122)) = true ↔ _
  simp [UInt32.le_iff_toNat_le, ← Char.toNat_val]

theorem not_isAlpha_of_isDigit {c : Char} (h : c.isDigit = true) : ¬ c.isAlpha = true := by
  rw [isDigit_iff] at h
  change ¬ (c.isUpper || c.isLower) = true
  rw [Bool.or_eq_true, isUpper_iff, isLower_iff]
  omega

theorem not_isBlank_of_isDigit {c : Char} (h : c.isDigit = true) : isBlank c = false := by
  rw [isDigit_iff] at h
  simp only [isBlank]
  grind

theorem isDigit_toLower (c : Char) : c.toLower.isDigit = c.isDigit := apply_toLower (by decide) c

theorem utf8ByteSize_small (cs : List Char) :
    (small cs).utf8ByteSize = (String.ofList cs).utf8ByteSize := by
  have hsize (c : Char) : c.toLower.utf8Size = c.utf8Size := apply_toLower (by decide) c
  unfold small
  induction cs with
  | nil => rfl
  | cons c cs ih =>
    rw [List.map_cons, String.ofList_cons, String.ofList_cons, String.utf8ByteSize_append,
      String.utf8ByteSize_append, String.utf8ByteSize_singleton, String.utf8ByteSize_singleton,
      hsize, ih]

theorem length_small (cs : List Char) : (small cs).length = cs.length := by
  rw [small, String.length_ofList, List.length_map]

/-- A text has no blanks if its small letters have none. -/
theorem isBlank_of_small {cs : List Char} {s : String} (h : small cs = s)
    (hs : s.toList.any isBlank = false) : ∀ c ∈ cs, isBlank c = false := by
  intro c hc
  have hmem : c.toLower ∈ s.toList := map_toLower_of_small h ▸ List.mem_map_of_mem hc
  rw [← isBlank_toLower]
  exact Bool.eq_false_iff.mpr (List.any_eq_false.mp hs c.toLower hmem)

end Case

section Words

variable {p : Char → Bool} {c : Char} {w cs : List Char} {ws : List (List Char)}

/-- A run of characters that are no separators. -/
def IsWord (p : Char → Bool) (w : List Char) : Prop := w ≠ [] ∧ ∀ c ∈ w, p c = false

/-- A text is made of words: separators, a word up to a separator or the end, and further words; or
separators alone. -/
inductive MadeOf (p : Char → Bool) : List (List Char) → List Char → Prop
  | nil {seps : List Char} (hseps : ∀ c ∈ seps, p c = true) : MadeOf p [] seps
  | cons {seps w rest : List Char} {ws : List (List Char)} (hseps : ∀ c ∈ seps, p c = true)
      (hw : IsWord p w) (hends : ∀ c, rest.head? = some c → p c = true) (h : MadeOf p ws rest) :
      MadeOf p (w :: ws) (seps ++ (w ++ rest))

theorem MadeOf.separator (h : MadeOf p ws cs) (hc : p c = true) : MadeOf p ws (c :: cs) := by
  cases h with
  | nil hseps => exact .nil (List.forall_mem_cons.mpr ⟨hc, hseps⟩)
  | cons hseps hw hends h =>
    exact .cons (List.forall_mem_cons.mpr ⟨hc, hseps⟩) hw hends h

theorem MadeOf.push {piece rest : List Char} {pieces : List (List Char)}
    (h : MadeOf p (pieces.filter fun w => !w.isEmpty) rest) (hpiece : ∀ c ∈ piece, p c = false)
    (hends : ∀ c, rest.head? = some c → p c = true) :
    MadeOf p ((piece :: pieces).filter fun w => !w.isEmpty) (piece ++ rest) := by
  cases piece with
  | nil => exact h
  | cons c piece =>
    change MadeOf p _ ([] ++ (c :: piece ++ rest))
    exact .cons (List.forall_mem_nil _) ⟨List.cons_ne_nil c piece, hpiece⟩ hends h

/-- Behind its first piece a text is made of the words after it. -/
theorem exists_madeOf_splitOnP (p : Char → Bool) (cs : List Char) : ∃ piece pieces rest,
    cs.splitOnP p = piece :: pieces ∧ piece ++ rest = cs ∧ (∀ c ∈ piece, p c = false) ∧
      (∀ c, rest.head? = some c → p c = true) ∧
      MadeOf p (pieces.filter fun w => !w.isEmpty) rest := by
  induction cs with
  | nil =>
    exact ⟨[], [], [], rfl, rfl, List.forall_mem_nil _, nofun, .nil (List.forall_mem_nil _)⟩
  | cons c cs ih =>
    obtain ⟨piece, pieces, rest, hsplit, hcs, hpiece, hends, h⟩ := ih
    rw [List.splitOnP_cons_eq_if_modifyHead, hsplit]
    by_cases hc : p c = true
    · refine ⟨[], piece :: pieces, c :: cs, if_pos hc, rfl, List.forall_mem_nil _, ?_, ?_⟩
      · rintro _ ⟨⟩
        exact hc
      · rw [← hcs]
        exact (h.push hpiece hends).separator hc
    · refine ⟨c :: piece, pieces, rest, if_neg hc, congrArg (c :: ·) hcs, ?_, hends, h⟩
      exact List.forall_mem_cons.mpr ⟨Bool.eq_false_iff.mpr hc, hpiece⟩

theorem madeOf_words (p : Char → Bool) (cs : List Char) : MadeOf p (words p cs) cs := by
  obtain ⟨piece, pieces, rest, hsplit, rfl, hpiece, hends, h⟩ := exists_madeOf_splitOnP p cs
  rw [words, hsplit]
  exact h.push hpiece hends

theorem words_separators {seps : List Char} (h : ∀ c ∈ seps, p c = true) (cs : List Char) :
    words p (seps ++ cs) = words p cs := by
  induction seps with
  | nil => rfl
  | cons c seps ih =>
    rw [List.forall_mem_cons] at h
    rw [List.cons_append, words_separator h.1, ih h.2]

theorem words_word (h : IsWord p w) : words p w = [w] := by
  rw [words, List.splitOnP_eq_singleton h.2, List.filter_cons_of_pos (by simpa using h.1),
    List.filter_nil]

theorem words_word_append (h : IsWord p w) {rest : List Char}
    (hends : ∀ c, rest.head? = some c → p c = true) :
    words p (w ++ rest) = w :: words p rest := by
  cases rest with
  | nil => rw [List.append_nil, words_word h, words_nil]
  | cons c rest =>
    have hc := hends c rfl
    rw [words_append _ hc, words_separator hc, words_word h, List.singleton_append]

/-- The words of a text are those that it is made of. -/
theorem words_eq_iff : words p cs = ws ↔ MadeOf p ws cs := by
  refine ⟨fun h => h ▸ madeOf_words p cs, fun h => ?_⟩
  induction h with
  | nil hseps => simpa using words_separators hseps []
  | cons hseps hw hends _ ih => rw [words_separators hseps, words_word_append hw hends, ih]

/-- Characters may be changed before or after a text is cut into its words, as long as separators
stay separators. -/
theorem words_map {f : Char → Char} (h : ∀ c, p (f c) = p c) (cs : List Char) :
    words p (cs.map f) = (words p cs).map (List.map f) := by
  have hall {b : Bool} {v : List Char} (hv : ∀ c ∈ v, p c = b) : ∀ c ∈ v.map f, p c = b := by
    simpa [h] using hv
  have hcs := madeOf_words p cs
  rw [words_eq_iff]
  generalize words p cs = ws at hcs
  induction hcs with
  | nil hseps => exact .nil (hall hseps)
  | @cons _ w rest _ hseps hw hends _ ih =>
    rw [List.map_append, List.map_append]
    refine .cons (hall hseps) ⟨mt List.map_eq_nil_iff.mp hw.1, hall hw.2⟩ (fun c hc => ?_) ih
    obtain ⟨d, hd, rfl⟩ := Option.map_eq_some_iff.mp (List.head?_map ▸ hc)
    rw [h]
    exact hends d hd

end Words

section Trim

variable {cs body : List Char}

def Blanks (cs : List Char) : Prop := ∀ c ∈ cs, isBlank c = true

/-- A text is another one between blanks. -/
def Holds (cs body : List Char) : Prop :=
  ∃ before after, cs = before ++ (body ++ after) ∧ Blanks before ∧ Blanks after

/-- A text neither begins nor ends with a blank. -/
structure Tight (body : List Char) : Prop where
  head : ∀ c, body.head? = some c → isBlank c = false
  last : ∀ c, body.getLast? = some c → isBlank c = false

theorem holds_self (cs : List Char) : Holds cs cs :=
  ⟨[], [], by simp, List.forall_mem_nil _, List.forall_mem_nil _⟩

theorem Tight.of_forall (h : ∀ c ∈ body, isBlank c = false) : Tight body :=
  ⟨fun c hc => h c (List.mem_of_head? hc), fun c hc => h c (List.mem_of_getLast? hc)⟩

theorem dropWhile_isBlank (h : ∀ c, cs.head? = some c → isBlank c = false) :
    cs.dropWhile isBlank = cs := by
  cases cs with
  | nil => rfl
  | cons c cs => exact List.dropWhile_cons_of_neg (by simp [h c rfl])

theorem blanks_takeWhile (cs : List Char) : Blanks (cs.takeWhile isBlank) :=
  List.all_eq_true.mp List.all_takeWhile

theorem holds_trimChars (cs : List Char) : Holds cs (trimChars cs) := by
  refine ⟨cs.takeWhile isBlank, ((cs.dropWhile isBlank).reverse.takeWhile isBlank).reverse, ?_,
    blanks_takeWhile cs, fun c hc => blanks_takeWhile _ c (List.mem_reverse.mp hc)⟩
  rw [trimChars, ← List.reverse_append, List.takeWhile_append_dropWhile, List.reverse_reverse,
    List.takeWhile_append_dropWhile]

/-- Trimming finds what is held between blanks, if no blank stands at its ends. -/
theorem trimChars_eq (h : Holds cs body) (ht : Tight body) : trimChars cs = body := by
  obtain ⟨before, after, rfl, hbefore, hafter⟩ := h
  have hreverse : (after.reverse ++ body.reverse).dropWhile isBlank = body.reverse := by
    rw [List.dropWhile_append_of_pos fun c hc => hafter c (List.mem_reverse.mp hc)]
    exact dropWhile_isBlank fun c hc => ht.last c (List.head?_reverse ▸ hc)
  rw [trimChars, List.dropWhile_append_of_pos hbefore]
  cases hb : body with
  | nil =>
    have hnone : (after ++ []).dropWhile isBlank = [].dropWhile isBlank :=
      List.dropWhile_append_of_pos hafter
    rw [List.append_nil] at hnone
    simp [hnone]
  | cons c cs =>
    have hself : (body ++ after).dropWhile isBlank = body ++ after :=
      dropWhile_isBlank fun d hd => ht.head d (by rw [hb] at hd ⊢; exact hd)
    rw [← hb, hself, List.reverse_append, hreverse, List.reverse_reverse]

end Trim

end KineticAlphabet.Text
