import KineticAlphabet.Generation.Pick
import KineticAlphabet.Sequence.Validity
/-!
Generation of a sequence. In freeform mode the beats are picked one after another. In circular mode
a slice is picked whose last beat ends where the CAP type takes the start position, and the slice is
repeated with the motions that the CAP type gives; if a repeat spells an excluded letter, the search
starts again with another slice. A search that finds nothing reports how far it came.
-/
namespace KineticAlphabet

/-- Why nothing was generated. -/
inductive GenerationError
  | invalidConfig (fault : Config.Fault)
  | exhausted (beat attempts : Nat) (reached : Sequence)
  | invalidSequence (violation : Violation)
  | missingMotions (beat : Nat)

def GenerationError.message : GenerationError → String
  | .invalidConfig fault => "Invalid configuration: Validation error: " ++ fault.message
  | .exhausted beat attempts _ => s!"No valid beat {beat} after {attempts} attempts"
  | .invalidSequence violation => "Generated sequence is invalid: " ++ violation.message
  | .missingMotions beat => s!"Beat {beat} has no motions"

namespace Generation

open KineticAlphabet.Random

variable {σ : Type} (source : Source σ) (c : Config)

def stateAfter (b : Beat) : Except GenerationError (Duo Stance) :=
  b.endState?.elim (.error (.missingMotions b.number)) .ok

/-- The report of a search that did not find a beat. -/
def exhausted (beat attempts : Nat) (start : Beat) (beats : List Beat) : GenerationError :=
  .exhausted beat attempts (.ofBeats "partial" (some start) beats)

def freeform (start : Beat) :
    Nat → List Beat → Search → StateM σ (Except GenerationError (List Beat))
  | 0, beats, _ => return .ok beats
  | n + 1, beats, search => do
    let (beat?, search) ← pick source c start beats none search
    match beat? with
    | some beat => freeform start n (beats ++ [beat]) search
    | none => return .error (exhausted (beats.length + 1) search.attempts start beats)

/-- A number of further beats of a slice, the last of which ends at the goal. Picking ends early
when there is no beat. -/
def slice (start : Beat) (goal : Duo Location) :
    Nat → List Beat → Search → StateM σ (List Beat × Search)
  | 0, beats, search => return (beats, search)
  | n + 1, beats, search => do
    let (beat?, search) ← pick source c start beats (if n = 0 then some goal else none) search
    match beat? with
    | some beat => slice start goal n (beats ++ [beat]) search
    | none => return (beats, search)

def chain (start : Beat) :
    List Motions → Duo Stance → List Beat → Except GenerationError (List Beat)
  | [], _, beats => .ok beats
  | ms :: rest, state, beats => do
    let beat := assemble (beats.length + 1) ms state (start :: beats)
    let state ← stateAfter beat
    chain start rest state (beats ++ [beat])

/-- The motions of a slice and of its repeats in a row. -/
def repeated (beats : List Beat) : List Motions :=
  (List.range c.slice.repeats).flatMap fun k =>
    beats.map fun b => c.cap.onMotionsN c.slice k b.motions

def extend (start : Beat) (beats : List Beat) : Except GenerationError (List Beat) := do
  let state ← stateAfter start
  chain start (repeated c beats) state []

/-- How far a search came: the number of the beat it did not find, and the beats before it. -/
structure Reach where
  beat : Nat
  beats : List Beat

/-- The farther reach, of two equal ones the later. -/
def Reach.farther (earlier later : Reach) : Reach :=
  if earlier.beat ≤ later.beat then later else earlier

def judge (start : Beat) (beats : List Beat) : Except GenerationError (List Beat ⊕ Reach) :=
  if beats.length < c.sliceLength then .ok (.inr ⟨beats.length + 1, beats⟩)
  else do
    let all ← extend c start beats
    match all.findIdx? fun b => isExcluded c b.letter with
    | none => return .inl all
    | some i => return .inr ⟨i + 1, all.take i⟩

/-- Slices picked until one makes a sequence, at most a number of times. -/
def circular (start : Beat) (goal : Duo Location) :
    Nat → Nat → Reach → StateM σ (Except GenerationError (List Beat))
  | 0, attempts, reach => return .error (exhausted reach.beat attempts start reach.beats)
  | n + 1, attempts, reach => do
    let (beats, search) ← slice source c start goal c.sliceLength [] ⟨.free, attempts⟩
    match judge c start beats with
    | .error e => return .error e
    | .ok (.inl all) => return .ok all
    | .ok (.inr further) => circular start goal n search.attempts (reach.farther further)

def beatsAfter (start : Beat) : StateM σ (Except GenerationError (List Beat)) :=
  match c.mode with
  | .freeform => freeform source c start c.length [] ⟨.free, 0⟩
  | .circular =>
    match stateAfter start with
    | .error e => return .error e
    | .ok state =>
      circular source c start (c.cap.onHands c.slice state.locations) c.maxAttempts 0 ⟨1, []⟩

def finish (start : Beat) (beats : List Beat) : Sequence :=
  let plain := Sequence.ofBeats "" (some start) beats
  let named := { plain with name := plain.word }
  let described := named.withMetadata "mode" (.str c.mode.name)
    |>.withMetadata "level" (.nat c.level)
    |>.withMetadata "grid_mode" (.str c.grid.name)
    |>.withMetadata "prop_continuity" (.str c.continuity.name)
  match c.mode with
  | .freeform => described
  | .circular =>
    described.withMetadata "cap_type" (.str c.cap.name)
      |>.withMetadata "slice_size" (.str c.slice.name)

/-- A sequence of a configuration that was checked. What comes out is checked once more. -/
def run : StateM σ (Except GenerationError Sequence) := do
  let start ← drawStart source c
  match ← beatsAfter source c start with
  | .error e => return .error e
  | .ok beats =>
    let s := finish c start beats
    return match s.validate (c.mode = .circular) with
      | .error violation => .error (.invalidSequence violation)
      | .ok () => .ok s

/-- A sequence of a configuration, if something can be generated from it at all. -/
def generate : StateM σ (Except GenerationError Sequence) :=
  match c.check with
  | .error fault => return .error (.invalidConfig fault)
  | .ok () => run source c

end Generation

end KineticAlphabet
