import KineticAlphabet.Rotation
/-!
The ring of eight locations, clockwise from north, and the two grids on it. Cardinal locations have
even places on the ring and make the diamond grid, the others make the box grid. Turning and
mirroring work on places modulo eight.
-/
namespace KineticAlphabet

/-- A point of the compass. -/
inductive Location
  | n
  | ne
  | e
  | se
  | s
  | sw
  | w
  | nw
deriving DecidableEq, Repr

/-- A grid: the four locations that are played on. -/
inductive Grid
  | diamond
  | box
deriving DecidableEq, Repr

namespace Location

def all : List Location := [n, ne, e, se, s, sw, w, nw]

def index : Location → Nat
  | n => 0
  | ne => 1
  | e => 2
  | se => 3
  | s => 4
  | sw => 5
  | w => 6
  | nw => 7

/-- The location at a place, which counts modulo eight. -/
def ofIndex (i : Int) : Location :=
  match (i % 8).toNat with
  | 0 => n
  | 1 => ne
  | 2 => e
  | 3 => se
  | 4 => s
  | 5 => sw
  | 6 => w
  | _ => nw

/-- The location some places further, clockwise where positive. -/
def rotated (l : Location) (steps : Int) : Location := ofIndex (l.index + steps)

def opposite (l : Location) : Location := l.rotated 4

/-- The mirror image across the axis from north to south. -/
def mirrored (l : Location) : Location := ofIndex (8 - l.index)

def stepsTo (a b : Location) : Nat := (b.index + 8 - a.index) % 8

def isCardinal (l : Location) : Bool := l.index % 2 = 0

def grid (l : Location) : Grid := if l.isCardinal then .diamond else .box

/-- The way a hand turns about the grid when it goes from one location to another. One that stays
or crosses the middle does not turn. -/
def handRotation (a b : Location) : Rotation :=
  match a.stepsTo b with
  | 1 | 2 | 3 => .cw
  | 5 | 6 | 7 => .ccw
  | _ => .none

def label : Location → String
  | n => "N"
  | ne => "NE"
  | e => "E"
  | se => "SE"
  | s => "S"
  | sw => "SW"
  | w => "W"
  | nw => "NW"

def name : Location → String
  | n => "n"
  | ne => "ne"
  | e => "e"
  | se => "se"
  | s => "s"
  | sw => "sw"
  | w => "w"
  | nw => "nw"

def ofName? (text : String) : Option Location :=
  all.find? fun l => l.name == text || l.label == text

def read (text : String) : Except ReadError Location :=
  (all.find? (·.label == Text.upper (Text.trim text))).elim (.error (.unknownLocation text)) .ok

theorem index_lt (l : Location) : l.index < 8 := by cases l <;> decide

@[simp] theorem ofIndex_index (l : Location) : ofIndex l.index = l := by cases l <;> rfl

/-- The place of a location is the number it was taken at, modulo eight. -/
theorem index_ofIndex (i : Int) : ((ofIndex i).index : Int) = i % 8 := by
  have h : i % 8 = 0 ∨ i % 8 = 1 ∨ i % 8 = 2 ∨ i % 8 = 3 ∨ i % 8 = 4 ∨ i % 8 = 5 ∨ i % 8 = 6 ∨
      i % 8 = 7 := by omega
  rcases h with h | h | h | h | h | h | h | h <;> simp [ofIndex, h, index]

theorem index_injective {a b : Location} (h : a.index = b.index) : a = b := by
  rw [← ofIndex_index a, h, ofIndex_index]

theorem index_rotated (l : Location) (n : Int) : ((l.rotated n).index : Int) = (l.index + n) % 8 :=
  index_ofIndex _

theorem index_mirrored (l : Location) : (l.mirrored.index : Int) = (8 - l.index) % 8 :=
  index_ofIndex _

theorem stepsTo_eq (a b : Location) : (a.stepsTo b : Int) = (b.index - a.index) % 8 := by
  have ha := a.index_lt
  simp only [stepsTo]
  omega

/-- The places of a grid are even or odd alike. -/
theorem grid_eq_iff {a b : Location} : a.grid = b.grid ↔ a.index % 2 = b.index % 2 := by
  cases a <;> cases b <;> decide

end Location

namespace Grid

def all : List Grid := [diamond, box]

/-- The point of a grid, clockwise from the first at or behind north. -/
def point (g : Grid) (i : Fin 4) : Location :=
  .ofIndex (2 * i.val + match g with
    | diamond => 0
    | box => 1)

def points (g : Grid) : List Location := [g.point 0, g.point 1, g.point 2, g.point 3]

def contains (g : Grid) (l : Location) : Bool := l.grid = g

def name : Grid → String
  | diamond => "diamond"
  | box => "box"

def ofName? (s : String) : Option Grid := all.find? (·.name == s)

/-- The points of a grid are the locations that lie on it. -/
theorem mem_points_iff (g : Grid) (l : Location) : l ∈ g.points ↔ l.grid = g := by
  cases g <;> cases l <;> decide

end Grid

end KineticAlphabet
