import KineticAlphabet.Catalog
import KineticAlphabet.Config.Basic
import KineticAlphabet.Random.Source
import KineticAlphabet.Reversal
import KineticAlphabet.Sequence.Basic
/-!
Picking one beat. From the pictographs of the catalog that start where the last beat ended, one is
drawn and dressed with turns, spins and floats. With continuous props each actor has a lock, the
direction in which it spun first, and a draw that breaks a lock is thrown away. A draw that keeps
them is joined to the last beat and labelled.
-/
namespace KineticAlphabet.Generation

open KineticAlphabet.Random

/-- The direction in which each actor has to spin, once it has spun. -/
abbrev Locks := Duo (Option Rotation)

namespace Locks

def free : Locks := ⟨none, none⟩

def permits (locks : Locks) (ms : Motions) : Bool :=
  Actor.all.all fun a =>
    match ms.spinning? a, locks.get a with
    | some spin, some lock => spin = lock
    | _, _ => true

/-- The locks after some motions. With random props there never are any. -/
def record (continuity : Continuity) (locks : Locks) (ms : Motions) : Locks :=
  match continuity with
  | .continuous => .ofFn fun a => (locks.get a).or (ms.spinning? a)
  | .random => locks

end Locks

/-- What a search carries from beat to beat: the locks and the attempts made so far. -/
structure Search where
  locks : Locks
  attempts : Nat
deriving DecidableEq, Repr

variable {σ : Type} (source : Source σ) (c : Config)

/-- The most whole turns at level 2, which 16 bits hold. -/
def wholeLimit : Nat := c.turnIntensity.floor.saturate 65535

/-- The most half turns at level 3, which 32 bits hold. -/
def halfLimit : Nat := c.turnIntensity.doubled.floor.saturate Turns.most

def drawTurns : StateM σ Turns :=
  match c.level with
  | 2 => do return .whole (.ofNat (← source.upTo .half (wholeLimit c)).val)
  | 3 => do return .half (.ofNat (← source.upTo .full (halfLimit c)).val)
  | _ => return .zero

/-- The spin of a static or a dash, which only spins if it turns: as it is locked, or as is drawn.
-/
def drawSpin (turns : Turns) (lock : Option Rotation) : StateM σ Rotation :=
  if turns.isZero then return .none
  else match lock with
    | some spin => return spin
    | none => do return if ← source.yes .half then .cw else .ccw

/-- A motion of the catalog with turns and spin, at the highest level now and then as a float. -/
def dress (m : Motion) (lock : Option Rotation) : StateM σ Motion := do
  let turns ← drawTurns source c
  let turned := { m with turns }
  if m.motionType.isShift then
    if 3 ≤ c.level then
      if ← source.yes .fifth then return turned.intoFloat.rederive
    return turned.rederive
  else
    let spin ← drawSpin source turns lock
    return { turned with spin }.rederive

def dressMotions (locks : Locks) (ms : Motions) : StateM σ Motions := do
  let blue ← ms.blue.mapM fun m => dress source c m locks.blue
  let red ← ms.red.mapM fun m => dress source c m locks.red
  return ⟨blue, red⟩

def isExcluded (letter : Option String) : Bool := letter.any c.excludedLetters.contains

/-- Whether a pictograph of the catalog may be drawn. The letter types count in freeform mode. -/
def isAllowed (p : Pictograph) : Bool :=
  !isExcluded c (some p.letterText) &&
    match c.mode with
    | .freeform => c.letterTypes.contains p.letterType
    | .circular => true

/-- The pictographs that may follow a state, all those that end at the goal if there is one. -/
def candidates (state : Duo Stance) (goal : Option (Duo Location)) : List Pictograph :=
  (Catalog.startingAt c.grid state.locations).filter fun p =>
    isAllowed c p && (goal.isNone || p.motions.endHands? = goal)

/-- Draws from a list of candidates until the locks permit one, at most a number of times. -/
def drawMotions (first : Pictograph) (others : List Pictograph) (locks : Locks) :
    Nat → Nat → StateM σ (Option Motions × Nat)
  | 0, attempts => return (none, attempts)
  | tries + 1, attempts => do
    let i ← source.upTo .full others.length
    let ms ← dressMotions source c locks (first :: others)[i].motions
    if locks.permits ms then return (some ms, attempts + 1)
    else drawMotions first others locks tries (attempts + 1)

def assemble (number : Nat) (ms : Motions) (state : Duo Stance) (history : List Beat) : Beat :=
  let motions : Motions :=
    ⟨ms.blue.map (·.withStartOrientation state.blue.orientation),
      ms.red.map (·.withStartOrientation state.red.orientation)⟩
  { Beat.empty number with
    letter := (motions.both?.bind Letter.ofMotions?).map Letter.text
    motions
    reversals := reversalFlags motions history
    startPosition := motions.startHands?.bind Position.label?
    endPosition := motions.endHands?.bind Position.label? }

def lastState? (start : Beat) (beats : List Beat) : Option (Duo Stance) :=
  (beats.getLast?.bind Beat.endState?).or start.endState?

/-- The next beat, if one can be found, with what the search carries on. -/
def pick (start : Beat) (beats : List Beat) (goal : Option (Duo Location)) (search : Search) :
    StateM σ (Option Beat × Search) :=
  match lastState? start beats with
  | none => return (none, search)
  | some state =>
    match candidates c state goal with
    -- that nothing may follow counts as one attempt
    | [] => return (none, { search with attempts := search.attempts + 1 })
    | first :: others => do
      let (ms?, attempts) ←
        drawMotions source c first others search.locks c.maxAttempts search.attempts
      match ms? with
      | none => return (none, { search with attempts })
      | some ms =>
        let beat := assemble (beats.length + 1) ms state (start :: beats)
        return (some beat, ⟨search.locks.record c.continuity ms, attempts⟩)

def drawStart : StateM σ Beat := do
  let blue := c.grid.point (← source.upTo .full 3)
  let red := c.grid.point (← source.upTo .full 3)
  return .ofStances ⟨⟨blue, .inward⟩, ⟨red, .inward⟩⟩ (Position.label? ⟨blue, red⟩)

end KineticAlphabet.Generation
