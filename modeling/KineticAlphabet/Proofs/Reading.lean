import KineticAlphabet.Proofs.Labelling
/-!
A word is read as letters in one way. The letters of a word stand one behind another with nothing
between them, and some letters are the beginning of others: a hyphen makes another letter of many.
But a hyphen never begins a letter, so what stands behind the first sign of a word tells which
letter begins it, and the others are found in the rest.
-/
namespace KineticAlphabet

namespace Letter

theorem text_injective : Function.Injective text := by
  intro l l' h
  have hl := ofText?_text l
  rw [h, ofText?_text l'] at hl
  exact (Option.some.inj hl).symm

/-- Whether the letter is another one with a hyphen behind it. -/
def isHyphenated (l : Letter) : Bool := l.letterType = .type3 || l.letterType = .type5

/-- What is written behind the first sign of a letter. -/
def ending (l : Letter) : List Char := if l.isHyphenated then ['-'] else []

theorem exists_sign (l : Letter) : ∃ c, c ≠ '-' ∧ l.text.toList = c :: l.ending := by
  cases l <;> exact ⟨_, by decide, rfl⟩

def spell (ls : List Letter) : List Char := ls.flatMap fun l => l.text.toList

@[simp] theorem spell_nil : spell [] = [] := rfl

@[simp] theorem spell_cons (l : Letter) (ls : List Letter) :
    spell (l :: ls) = l.text.toList ++ spell ls := rfl

theorem toList_join_text (ls : List Letter) : (String.join (ls.map text)).toList = spell ls := by
  rw [String.toList_join, List.flatMap_map, spell]

theorem head?_spell (ls : List Letter) : (spell ls).head? ≠ some '-' := by
  cases ls with
  | nil => simp
  | cons l ls =>
    obtain ⟨c, hc, hl⟩ := l.exists_sign
    simp [hl, hc]

/-- The hyphen behind the first sign belongs to the letter, because what follows has none in
front. -/
theorem ending_append_inj {l l' : Letter} {rest rest' : List Char} (hr : rest.head? ≠ some '-')
    (hr' : rest'.head? ≠ some '-') (h : l.ending ++ rest = l'.ending ++ rest') :
    l.ending = l'.ending ∧ rest = rest' := by
  by_cases hl : l.isHyphenated <;> by_cases hl' : l'.isHyphenated <;>
    simp only [ending, hl, hl', if_true, if_false, Bool.false_eq_true, List.cons_append,
      List.nil_append, List.cons.injEq, true_and] at h ⊢
  · exact h
  · rw [← h] at hr'
    exact absurd rfl hr'
  · rw [h] at hr
    exact absurd rfl hr
  · exact h

/-- So a letter is read off the front of what follows it in one way. -/
theorem text_append_inj {l l' : Letter} {rest rest' : List Char} (hr : rest.head? ≠ some '-')
    (hr' : rest'.head? ≠ some '-') (h : l.text.toList ++ rest = l'.text.toList ++ rest') :
    l = l' ∧ rest = rest' := by
  obtain ⟨c, -, hl⟩ := l.exists_sign
  obtain ⟨c', -, hl'⟩ := l'.exists_sign
  rw [hl, hl', List.cons_append, List.cons_append, List.cons.injEq] at h
  obtain ⟨hending, hrest⟩ := ending_append_inj hr hr' h.2
  have htext : l.text.toList = l'.text.toList := by rw [hl, hl', h.1, hending]
  exact ⟨text_injective (String.toList_inj.mp htext), hrest⟩

theorem spell_injective : Function.Injective spell := by
  intro ls ls' h
  induction ls generalizing ls' with
  | nil =>
    cases ls' with
    | nil => rfl
    | cons l' ls' =>
      obtain ⟨c, -, hl⟩ := l'.exists_sign
      simp [hl] at h
  | cons l ls ih =>
    cases ls' with
    | nil =>
      obtain ⟨c, -, hl⟩ := l.exists_sign
      simp [hl] at h
    | cons l' ls' =>
      obtain ⟨rfl, hrest⟩ := text_append_inj (head?_spell ls) (head?_spell ls') h
      rw [ih hrest]

end Letter

def Beat.IsLettered (b : Beat) : Prop := ∃ l : Letter, b.letter = some l.text

namespace Sequence

variable {q q' : Sequence}

theorem exists_spell (h : ∀ b ∈ q.beats, b.IsLettered) : ∃ ls : List Letter,
    q.beats.map Beat.letter = ls.map (fun l => some l.text) ∧ q.word.toList = Letter.spell ls := by
  obtain ⟨ls, hls⟩ := exists_letters h
  exact ⟨ls, hls, by rw [word_of_letters hls, Letter.toList_join_text]⟩

theorem letters_eq_of_word_eq (h : ∀ b ∈ q.beats, b.IsLettered)
    (h' : ∀ b ∈ q'.beats, b.IsLettered) (hw : q.word = q'.word) :
    q.beats.map Beat.letter = q'.beats.map Beat.letter := by
  obtain ⟨ls, hls, hword⟩ := exists_spell h
  obtain ⟨ls', hls', hword'⟩ := exists_spell h'
  rw [hw, hword'] at hword
  rw [hls, hls', Letter.spell_injective hword]

end Sequence

namespace Generation

open KineticAlphabet.Random

variable {σ : Type} {c : Config} {s : σ} {q : Sequence}

/-- A sequence that is generated is named by letters of the alphabet. -/
theorem isLettered_of_generate {source : Source σ} (h : ((generate source c).run s).1 = .ok q) :
    q.name = q.word ∧ ∀ b ∈ q.beats, b.IsLettered := by
  obtain ⟨start, beats, hc, hs, hb, rfl⟩ := exists_built source h
  exact ⟨finish_name c start beats, (hb.labelled_finish hc hs).exists_letter⟩

/-- Two rows of beats that carry letters of the alphabet make the same word only if they carry the
same letters, and then there are as many of them. So the name of a sequence that is generated tells
its letters, whatever the two were generated from. -/
theorem word_tells_letters :
    (∀ q q' : Sequence, (∀ b ∈ q.beats, b.IsLettered) → (∀ b ∈ q'.beats, b.IsLettered) →
      q.word = q'.word →
        q.beats.map Beat.letter = q'.beats.map Beat.letter ∧ q.length = q'.length) ∧
    ∀ (σ σ' : Type) (source : Source σ) (source' : Source σ') (c c' : Config) (s : σ) (s' : σ')
      (q q' : Sequence), ((generate source c).run s).1 = .ok q →
      ((generate source' c').run s').1 = .ok q' → q.name = q'.name →
        q.beats.map Beat.letter = q'.beats.map Beat.letter ∧ q.length = q'.length := by
  have hword : ∀ q q' : Sequence, (∀ b ∈ q.beats, b.IsLettered) →
      (∀ b ∈ q'.beats, b.IsLettered) → q.word = q'.word →
        q.beats.map Beat.letter = q'.beats.map Beat.letter ∧ q.length = q'.length := by
    intro q q' h h' hw
    have hletters := Sequence.letters_eq_of_word_eq h h' hw
    exact ⟨hletters, by simpa [Sequence.length] using congrArg List.length hletters⟩
  refine ⟨hword, fun σ σ' source source' c c' s s' q q' hq hq' hname => ?_⟩
  obtain ⟨hn, hl⟩ := isLettered_of_generate hq
  obtain ⟨hn', hl'⟩ := isLettered_of_generate hq'
  exact hword q q' hl hl' (by rw [← hn, ← hn', hname])

/-- A blank beat with a letter. -/
def lettered (l : Letter) : Beat := { Beat.blank 1 with letter := some l.text }

def name? : Except GenerationError Sequence → Option String
  | .ok q => some q.name
  | .error _ => none

theorem exists_of_name? {r : Except GenerationError Sequence} {name : String}
    (h : name? r = some name) : ∃ q, r = .ok q ∧ q.name = name := by
  cases r with
  | error e => cases h
  | ok q => exact ⟨q, rfl, Option.some.inj h⟩

/-- Two freeform beats of a shift with a static or a dash. -/
def twoMixed (g : Grid) : Config :=
  { Config.standard with
    length := 2, grid := g, letterTypes := [.type2, .type3], maxAttempts := 1 }

theorem name?_twoMixed (g : Grid) :
    name? ((generate script (twoMixed g)).run [0, 1, 1]).1 = some "W-Σ" := by
  have hlength : (twoMixed g).length = 2 := rfl
  simp only [generate, run, beatsAfter, hlength, freeform, pick, candidates, Catalog.startingAt,
    Catalog.entries_eq_build, Catalog.build_eq_map_zipIdx]
  cases g <;> decide +kernel

/-- A letter that begins the next one, both put in place at once. -/
def atOnce : Sequence := .ofBeats "at once" none [lettered .W, lettered .crossW]

def oneByOne : Sequence :=
  ((Sequence.empty "one by one").add (lettered .W)).add (lettered .crossW)

/-- However a word came about, the hyphen in it belongs to the second letter; and two sequences of
one name, generated on different grids, have the same letters. -/
theorem word_tells_letters_hyphenated :
    (atOnce.word = "WW-" ∧ oneByOne.word = "WW-" ∧
      atOnce.beats.map Beat.letter = oneByOne.beats.map Beat.letter ∧
      atOnce.length = oneByOne.length) ∧
    ∃ q q', ((generate script (twoMixed .diamond)).run [0, 1, 1]).1 = .ok q ∧
      ((generate script (twoMixed .box)).run [0, 1, 1]).1 = .ok q' ∧
      q.name = "W-Σ" ∧ q'.name = "W-Σ" ∧
      q.beats.map Beat.letter = q'.beats.map Beat.letter ∧ q.length = q'.length := by
  obtain ⟨hwords, hnames⟩ := word_tells_letters
  have hlettered : ∀ m n : Nat, ∀ b ∈ [{ lettered .W with number := m },
      { lettered .crossW with number := n }], b.IsLettered := by
    intro m n
    simp only [List.forall_mem_cons, List.not_mem_nil, false_implies, implies_true, and_true]
    exact ⟨⟨.W, rfl⟩, .crossW, rfl⟩
  have hw : atOnce.word = "WW-" := by decide +kernel
  have hw' : oneByOne.word = "WW-" := by decide +kernel
  obtain ⟨q, hq, hn⟩ := exists_of_name? (name?_twoMixed .diamond)
  obtain ⟨q', hq', hn'⟩ := exists_of_name? (name?_twoMixed .box)
  exact ⟨⟨hw, hw', hwords _ _ (hlettered 1 2) (hlettered 1 2) (hw.trans hw'.symm)⟩,
    q, q', hq, hq', hn, hn', hnames _ _ _ _ _ _ _ _ q q' hq hq' (hn.trans hn'.symm)⟩

end Generation

end KineticAlphabet
