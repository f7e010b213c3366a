import KineticAlphabet.Proofs.Completeness
import KineticAlphabet.Proofs.Counting
/-!
Which parts of a configuration count. A generation reads CAP type and slice in circular mode only,
the letter types in freeform mode only, and of a list of letter types or of excluded letters only
which letter types or letters are in it. Of the intensity it reads, depending on the level, nothing,
the whole part, or the whole part of its double. So two configurations that agree on what counts
draw the same values one by one, and from one state of a source the outcome is the same, be it a
sequence or a report.
-/
namespace KineticAlphabet

namespace Config

/-- Two configurations agree on what counts for a generation. The seed only chooses the state of a
source. -/
structure Agrees (c c' : Config) : Prop where
  mode : c.mode = c'.mode
  length : c.length = c'.length
  level : c.level = c'.level
  wholes : c.level = 2 → c.turnIntensity.floor? = c'.turnIntensity.floor?
  halves : c.level = 3 → c.turnIntensity.doubled.floor? = c'.turnIntensity.doubled.floor?
  grid : c.grid = c'.grid
  continuity : c.continuity = c'.continuity
  letterTypes : c.mode = .freeform → ∀ t, t ∈ c.letterTypes ↔ t ∈ c'.letterTypes
  slice : c.mode = .circular → c.slice = c'.slice
  cap : c.mode = .circular → c.cap = c'.cap
  excludedLetters : ∀ l : Letter, l.text ∈ c.excludedLetters ↔ l.text ∈ c'.excludedLetters
  maxAttempts : c.maxAttempts = c'.maxAttempts

variable {c c' : Config}

theorem Agrees.sliceLength (h : c.Agrees c') : c.sliceLength = c'.sliceLength := by
  rw [Config.sliceLength, Config.sliceLength, ← h.mode, ← h.length]
  cases hm : c.mode with
  | freeform => rfl
  | circular =>
    dsimp only
    rw [h.slice hm]

end Config

namespace Generation

open KineticAlphabet.Random

variable {σ : Type} {source : Source σ} {c c' : Config}

/-- The same turns are drawn: none, or up to the same limit. -/
theorem drawTurns_congr (h : c.Agrees c') (hc : c.Admitted) (hc' : c'.Admitted) :
    drawTurns source c = drawTurns source c' := by
  have hwhole : c.level = 2 → wholeLimit c = wholeLimit c' := by
    intro hl
    rw [wholeLimit_eq hc, h.wholes hl, wholeLimit_eq hc']
  have hhalf : c.level = 3 → halfLimit c = halfLimit c' := by
    intro hl
    rw [halfLimit_eq hc, h.halves hl, halfLimit_eq hc']
  unfold drawTurns
  rw [← h.level]
  split
  case h_1 hl => rw [hwhole hl]
  case h_2 hl => rw [hhalf hl]
  case h_3 => rfl

/-- Apart from the turns only the level matters for a motion. -/
theorem dressMotions_congr (h : c.Agrees c') (ht : drawTurns source c = drawTurns source c')
    (locks : Locks) (ms : Motions) :
    dressMotions source c locks ms = dressMotions source c' locks ms := by
  have hdress : ∀ m lock, dress source c m lock = dress source c' m lock := by
    intro m lock
    rw [dress, ht, h.level, dress]
  simp only [dressMotions, hdress]

theorem drawMotions_congr
    (hd : ∀ locks ms, dressMotions source c locks ms = dressMotions source c' locks ms)
    (first : Pictograph) (others : List Pictograph) (locks : Locks) (tries attempts : Nat) :
    drawMotions source c first others locks tries attempts =
      drawMotions source c' first others locks tries attempts := by
  induction tries generalizing attempts with
  | zero => rfl
  | succ tries ih => simp only [drawMotions, hd, ih]

/-- The same letters of the alphabet are excluded. -/
theorem isExcluded_congr (h : c.Agrees c') (l : Option Letter) :
    isExcluded c (l.map Letter.text) = isExcluded c' (l.map Letter.text) := by
  cases l with
  | none => rfl
  | some l =>
    have hmem : ∀ c : Config, isExcluded c (some l.text) = true ↔ l.text ∈ c.excludedLetters :=
      fun c => List.contains_iff_mem
    rw [Option.map_some, Bool.eq_iff_iff, hmem, hmem]
    exact h.excludedLetters l

/-- The catalog only holds letters of the alphabet, so the same pictographs may follow. -/
theorem candidates_congr (h : c.Agrees c') (state : Duo Stance) (goal : Option (Duo Location)) :
    candidates c state goal = candidates c' state goal := by
  unfold candidates
  rw [← h.grid]
  refine List.filter_congr fun p hp => ?_
  obtain ⟨-, l, -, hl, -⟩ := Catalog.exists_offers_of_mem hp
  have hallowed : isAllowed c p = isAllowed c' p := by
    rw [Bool.eq_iff_iff, isAllowed_iff hl, isAllowed_iff hl, ← h.mode]
    refine and_congr (not_congr (h.excludedLetters l)) (forall_congr' fun hm => ?_)
    exact h.letterTypes hm l.letterType
  rw [hallowed]

/-- So one pick has the same outcome. -/
theorem pick_congr (h : c.Agrees c') (ht : drawTurns source c = drawTurns source c') (start : Beat)
    (beats : List Beat) (goal : Option (Duo Location)) (search : Search) :
    pick source c start beats goal search = pick source c' start beats goal search := by
  have hd := dressMotions_congr h ht
  simp only [pick, candidates_congr h, drawMotions_congr hd, h.continuity, h.maxAttempts]

/-- What holds of every beat that can be assembled holds of all beats of a chain. -/
theorem forall_mem_chain {P : Beat → Prop}
    (hP : ∀ n ms state history, P (assemble n ms state history)) {start : Beat}
    {mss : List Motions} {state : Duo Stance} {beats all : List Beat}
    (h : chain start mss state beats = .ok all) (hbeats : ∀ b ∈ beats, P b) : ∀ b ∈ all, P b := by
  induction mss generalizing state beats with
  | nil =>
    cases h
    exact hbeats
  | cons ms rest ih =>
    rw [chain] at h
    cases hs : stateAfter (assemble (beats.length + 1) ms state (start :: beats)) with
    | error e =>
      rw [hs] at h
      cases h
    | ok next =>
      rw [hs] at h
      refine ih h fun b hb => ?_
      rcases List.mem_append.mp hb with hb | hb
      · exact hbeats b hb
      · rw [List.mem_singleton.mp hb]
        exact hP _ _ _ _

theorem forall_mem_extend {P : Beat → Prop}
    (hP : ∀ n ms state history, P (assemble n ms state history)) {start : Beat}
    {beats all : List Beat} (h : extend c start beats = .ok all) : ∀ b ∈ all, P b := by
  unfold extend at h
  cases hs : stateAfter start with
  | error e =>
    rw [hs] at h
    cases h
  | ok state =>
    rw [hs] at h
    exact forall_mem_chain hP h (List.forall_mem_nil P)

theorem findIdx?_congr {α : Type} {p q : α → Bool} {xs : List α} (h : ∀ x ∈ xs, p x = q x) :
    xs.findIdx? p = xs.findIdx? q := by
  induction xs with
  | nil => rfl
  | cons x xs ih =>
    rw [List.findIdx?_cons, List.findIdx?_cons, h x (.head _), ih fun y hy => h y (.tail _ hy)]

/-- A slice is judged alike: it is repeated in the same way, and the letters that the repeats spell
are letters of the alphabet. -/
theorem judge_congr (h : c.Agrees c') (hm : c.mode = .circular) (start : Beat)
    (beats : List Beat) : judge c start beats = judge c' start beats := by
  have hextend : extend c start beats = extend c' start beats := by
    simp only [extend, repeated, h.slice hm, h.cap hm]
  unfold judge
  rw [← h.sliceLength, ← hextend]
  cases hall : extend c start beats with
  | error e => rfl
  | ok all =>
    have hexcluded : ∀ b ∈ all, isExcluded c b.letter = isExcluded c' b.letter := by
      refine forall_mem_extend (fun n ms state history => ?_) hall
      exact isExcluded_congr h _
    simp only [bind, Except.bind, findIdx?_congr hexcluded]

section Runs

variable (hp : ∀ start beats goal search,
  pick source c start beats goal search = pick source c' start beats goal search)
include hp

theorem freeform_congr (start : Beat) (n : Nat) (beats : List Beat) (search : Search) :
    freeform source c start n beats search = freeform source c' start n beats search := by
  induction n generalizing beats search with
  | zero => rfl
  | succ n ih => simp only [freeform, hp, ih]

theorem slice_congr (start : Beat) (goal : Duo Location) (n : Nat) (beats : List Beat)
    (search : Search) :
    slice source c start goal n beats search = slice source c' start goal n beats search := by
  induction n generalizing beats search with
  | zero => rfl
  | succ n ih => simp only [slice, hp, ih]

theorem circular_congr (h : c.Agrees c') (hm : c.mode = .circular) (start : Beat)
    (goal : Duo Location) (n attempts : Nat) (reach : Reach) :
    circular source c start goal n attempts reach =
      circular source c' start goal n attempts reach := by
  induction n generalizing attempts reach with
  | zero => rfl
  | succ n ih =>
    rw [circular, circular, slice_congr hp, h.sliceLength]
    refine bind_congr fun ⟨beats, search⟩ => ?_
    dsimp only
    rw [judge_congr h hm]
    rcases judge c' start beats with _ | _ | further
    · rfl
    · rfl
    · exact ih _ _

end Runs

theorem beatsAfter_congr (h : c.Agrees c') (ht : drawTurns source c = drawTurns source c')
    (start : Beat) : beatsAfter source c start = beatsAfter source c' start := by
  have hp := pick_congr h ht
  unfold beatsAfter
  rw [← h.mode]
  cases hm : c.mode with
  | freeform =>
    dsimp only
    rw [freeform_congr hp, h.length]
  | circular =>
    cases stateAfter start with
    | error e => rfl
    | ok state =>
      dsimp only
      rw [circular_congr hp h hm, h.cap hm, h.slice hm, h.maxAttempts]

/-- The metadata tell only what counts. -/
theorem finish_congr (h : c.Agrees c') (start : Beat) (beats : List Beat) :
    finish c start beats = finish c' start beats := by
  unfold finish
  rw [← h.mode, ← h.level, ← h.grid, ← h.continuity]
  cases hm : c.mode with
  | freeform => rfl
  | circular => rw [h.cap hm, h.slice hm]

/-- From one state of a source, configurations that agree on what counts generate the same sequence
or fail with the same report, and they leave the source in the same state. -/
theorem generate_eq_of_agrees (source : Source σ) (h : c.Agrees c') (hc : c.check = .ok ())
    (hc' : c'.check = .ok ()) (s : σ) :
    (generate source c).run s = (generate source c').run s := by
  have ht : drawTurns source c = drawTurns source c' :=
    drawTurns_congr h (Config.check_eq_ok_iff.mp hc) (Config.check_eq_ok_iff.mp hc')
  have hstart : drawStart source c = drawStart source c' := by
    rw [drawStart, h.grid, drawStart]
  have hrun : run source c = run source c' := by
    simp only [run, hstart, beatsAfter_congr h ht, finish_congr h, h.mode]
  rw [generate, hc, hrun, generate, hc']

/-- The advanced configuration without the first two letters. -/
def withoutAB : Config := { Config.advanced with excludedLetters := ["A", "B"] }

/-- The same, put differently: with the letter types in another order and one of them twice, with
an excluded text that is no letter, with a slice and a CAP type, and with up to two and a quarter
turns. -/
def withoutABReworded : Config :=
  { Config.advanced with
    turnIntensity := .ofRat (9 / 4), letterTypes := LetterType.all.reverse ++ [.type1],
    slice := .quartered, cap := .mirroredSwapped,
    excludedLetters := ["B", "no letter", "A", "B"] }

theorem agrees_withoutABReworded : withoutAB.Agrees withoutABReworded where
  mode := rfl
  length := rfl
  level := rfl
  wholes := nofun
  halves := fun _ => by decide +kernel
  grid := rfl
  continuity := rfl
  letterTypes := fun _ t => by cases t <;> decide
  slice := nofun
  cap := nofun
  excludedLetters := fun l => by cases l <;> decide
  maxAttempts := rfl

/-- The same again in circular mode, where there need not be any letter types. -/
def withoutABCircled : Config :=
  { withoutABReworded.withCap .strictRotated .halved with letterTypes := [] }

/-- The first seed gives the same outcomes, in freeform mode and in circular mode. -/
theorem generate_eq_of_agrees_withoutAB :
    (generate ChaCha.source withoutAB).run (.ofSeed 0) =
      (generate ChaCha.source withoutABReworded).run (.ofSeed 0) ∧
    (generate ChaCha.source (withoutAB.withCap .strictRotated .halved)).run (.ofSeed 0) =
      (generate ChaCha.source withoutABCircled).run (.ofSeed 0) := by
  have hplain : withoutAB.Admitted := { Config.admitted_advanced with }
  have hreworded : withoutABReworded.Admitted := by constructor <;> decide +kernel
  have hcircled : (withoutAB.withCap .strictRotated .halved).Admitted :=
    { Config.admitted_advanced_halved .strictRotated with }
  have hempty : withoutABCircled.Admitted := by constructor <;> decide +kernel
  have hagrees : (withoutAB.withCap .strictRotated .halved).Agrees withoutABCircled :=
    { agrees_withoutABReworded with
      mode := rfl
      letterTypes := nofun
      slice := fun _ => rfl
      cap := fun _ => rfl }
  exact ⟨generate_eq_of_agrees ChaCha.source agrees_withoutABReworded
      (Config.check_eq_ok_iff.mpr hplain) (Config.check_eq_ok_iff.mpr hreworded) (.ofSeed 0),
    generate_eq_of_agrees ChaCha.source hagrees
      (Config.check_eq_ok_iff.mpr hcircled) (Config.check_eq_ok_iff.mpr hempty) (.ofSeed 0)⟩

end Generation

end KineticAlphabet
