import KineticAlphabet.Cap
/-!
What CAP types do to hands and to motions. The places of the ring turn and mirror like those of a
regular octagon, so a CAP type has come round after as many slices as make up a sequence. It takes
the hands of two motions where it takes the hands themselves, and apart from orientations what it
makes of motions does not depend on their orientations.
-/
namespace KineticAlphabet

namespace Location

theorem rotated_rotated (l : Location) (m n : Int) :
    (l.rotated m).rotated n = l.rotated (m + n) := by
  apply index_injective
  have h1 := index_rotated l m
  have h2 := index_rotated (l.rotated m) n
  have h3 := index_rotated l (m + n)
  omega

theorem mirrored_rotated (l : Location) (n : Int) :
    (l.rotated n).mirrored = l.mirrored.rotated (-n) := by
  apply index_injective
  have h1 := index_rotated l n
  have h2 := index_mirrored (l.rotated n)
  have h3 := index_mirrored l
  have h4 := index_rotated l.mirrored (-n)
  omega

@[simp] theorem mirrored_mirrored (l : Location) : l.mirrored.mirrored = l := by
  cases l <;> rfl

/-- A whole turn of the ring changes nothing. -/
theorem rotated_eq_self (l : Location) {n : Int} (h : n % 8 = 0) : l.rotated n = l := by
  apply index_injective
  have h1 := index_rotated l n
  have h2 := l.index_lt
  omega

/-- An even number of steps leads to the same grid, an odd one to the other. -/
theorem grid_rotated_eq_iff (l : Location) {n : Int} :
    (l.rotated n).grid = l.grid ↔ n % 2 = 0 := by
  have h1 := index_rotated l n
  rw [grid_eq_iff]
  omega

theorem grid_rotated (l : Location) {n : Int} (h : n % 2 = 0) : (l.rotated n).grid = l.grid :=
  (grid_rotated_eq_iff l).mpr h

theorem grid_mirrored (l : Location) : l.mirrored.grid = l.grid := by
  cases l <;> rfl

/-- Turning both ends of a way changes neither its length nor its direction. -/
theorem stepsTo_rotated (a b : Location) (n : Int) :
    (a.rotated n).stepsTo (b.rotated n) = a.stepsTo b := by
  have h1 := index_rotated a n
  have h2 := index_rotated b n
  have h3 := stepsTo_eq a b
  have h4 := stepsTo_eq (a.rotated n) (b.rotated n)
  omega

theorem handRotation_rotated (a b : Location) (n : Int) :
    (a.rotated n).handRotation (b.rotated n) = a.handRotation b := by
  simp only [handRotation, stepsTo_rotated]

/-- In the mirror a way goes round the other side of the ring. -/
theorem stepsTo_mirrored (a b : Location) :
    a.mirrored.stepsTo b.mirrored = (8 - a.stepsTo b) % 8 := by
  have h1 := index_mirrored a
  have h2 := index_mirrored b
  have h3 := stepsTo_eq a b
  have h4 := stepsTo_eq a.mirrored b.mirrored
  omega

theorem handRotation_mirrored (a b : Location) :
    a.mirrored.handRotation b.mirrored = (a.handRotation b).reversed := by
  cases a <;> cases b <;> rfl

end Location

namespace Duo

def hands? (place : Motion → Location) (ms : Motions) : Option (Duo Location) :=
  ms.both?.map (·.map place)

theorem startHands?_eq (ms : Motions) : ms.startHands? = hands? Motion.startLocation ms := rfl

theorem endHands?_eq (ms : Motions) : ms.endHands? = hands? Motion.endLocation ms := rfl

end Duo

/-- A place of a motion that moves with the grid and does not depend on the type of the motion. -/
structure Motion.IsPlace (place : Motion → Location) : Prop where
  rotated : ∀ m n, place (Motion.rotated m n) = (place m).rotated n
  mirrored : ∀ m, place (Motion.mirrored m) = (place m).mirrored
  complement : ∀ m, place (Motion.complement m) = place m

namespace Motion

theorem complement_startLocation (m : Motion) : m.complement.startLocation = m.startLocation := by
  rcases m with ⟨_ | _ | _ | _ | _⟩ <;> rfl

theorem complement_endLocation (m : Motion) : m.complement.endLocation = m.endLocation := by
  rcases m with ⟨_ | _ | _ | _ | _⟩ <;> rfl

theorem isPlace_startLocation : IsPlace startLocation :=
  ⟨fun _ _ => rfl, fun _ => rfl, complement_startLocation⟩

theorem isPlace_endLocation : IsPlace endLocation :=
  ⟨fun _ _ => rfl, fun _ => rfl, complement_endLocation⟩

end Motion

namespace Cap

variable {place : Motion → Location}

theorem Component.hands?_onMotions (h : Motion.IsPlace place) (slice : Slice) (k : Component)
    (ms : Motions) : Duo.hands? place (k.onMotions slice ms) =
      (Duo.hands? place ms).map (k.onHands slice) := by
  rcases ms with ⟨_ | b, _ | r⟩ <;> cases k <;>
    simp [Duo.hands?, onMotions, onHands, Duo.both?, Duo.map, Duo.swap, h.rotated, h.mirrored,
      h.complement]

/-- A CAP type takes the hands of motions where it takes the hands themselves. -/
theorem hands?_onMotions (h : Motion.IsPlace place) (c : Cap) (slice : Slice) (ms : Motions) :
    Duo.hands? place (c.onMotions slice ms) = (Duo.hands? place ms).map (c.onHands slice) := by
  unfold onMotions onHands
  induction c.components generalizing ms with
  | nil => simp
  | cons k ks ih =>
    simp only [List.foldl_cons]
    rw [ih, Component.hands?_onMotions h, Option.map_map]
    rfl

/-- The same some slices later. -/
theorem hands?_onMotionsN (h : Motion.IsPlace place) (c : Cap) (slice : Slice) (n : Nat)
    (ms : Motions) : Duo.hands? place (c.onMotionsN slice n ms) =
      (Duo.hands? place ms).map (c.onHandsN slice n) := by
  induction n with
  | zero => simp [onMotionsN, onHandsN]
  | succ n ih =>
    simp only [onMotionsN, onHandsN]
    rw [hands?_onMotions h, ih, Option.map_map]
    rfl

theorem onHandsN_succ (c : Cap) (slice : Slice) (n : Nat) (hands : Duo Location) :
    c.onHandsN slice (n + 1) hands = c.onHandsN slice n (c.onHands slice hands) := by
  induction n with
  | zero => rfl
  | succ n ih =>
    rw [onHandsN, ih]
    rfl

/-- After all slices the hands are back where they were. -/
theorem onHandsN_repeats (c : Cap) (slice : Slice) (hands : Duo Location) :
    c.onHandsN slice slice.repeats hands = hands := by
  rcases hands with ⟨b, r⟩
  cases c <;> cases slice <;>
    simp [Slice.repeats, onHandsN, onHands, components, Component.onHands, Duo.map, Duo.swap,
      Slice.steps, Location.mirrored_rotated, Location.rotated_rotated, Location.rotated_eq_self]

theorem Component.grid_onHands (slice : Slice) (k : Component) {g : Grid} {hands : Duo Location}
    (h : ∀ a, (hands.get a).grid = g) (a : Actor) : ((k.onHands slice hands).get a).grid = g := by
  cases k with
  | rotated =>
    have he : (slice.steps : Int) % 2 = 0 := by cases slice <;> rfl
    rw [onHands, Duo.get_map, Location.grid_rotated _ he, h]
  | mirrored => rw [onHands, Duo.get_map, Location.grid_mirrored, h]
  | swapped =>
    cases a with
    | blue => exact h .red
    | red => exact h .blue
  | complementary => exact h a

/-- Hands on a grid stay on it. -/
theorem grid_onHands (c : Cap) (slice : Slice) {g : Grid} {hands : Duo Location}
    (h : ∀ a, (hands.get a).grid = g) (a : Actor) : ((c.onHands slice hands).get a).grid = g := by
  unfold onHands
  induction c.components generalizing hands with
  | nil => exact h a
  | cons k ks ih => exact ih (Component.grid_onHands slice k h)

end Cap

/-- A motion without its orientations. -/
def Motion.outline (m : Motion) : Motion :=
  { m with startOrientation := .inward, endOrientation := .inward }

def Duo.outline (ms : Motions) : Motions := ms.map (Option.map Motion.outline)

namespace Motion

@[simp] theorem outline_outline (m : Motion) : m.outline.outline = m.outline := rfl

theorem outline_rotated (m : Motion) (n : Nat) :
    (m.outline.rotated n).outline = (m.rotated n).outline := rfl

theorem outline_mirrored (m : Motion) : m.outline.mirrored.outline = m.mirrored.outline := rfl

theorem outline_complement (m : Motion) :
    m.outline.complement.outline = m.complement.outline := by
  rcases m with ⟨_ | _ | _ | _ | _⟩ <;> rfl

end Motion

namespace Cap

theorem Component.outline_onMotions (slice : Slice) (k : Component) (ms : Motions) :
    (k.onMotions slice ms.outline).outline = (k.onMotions slice ms).outline := by
  rcases ms with ⟨_ | b, _ | r⟩ <;> cases k <;>
    simp [Duo.outline, onMotions, Duo.map, Duo.swap, Motion.outline_rotated,
      Motion.outline_mirrored, Motion.outline_complement]

theorem outline_onMotions_congr (c : Cap) (slice : Slice) {ms ms' : Motions}
    (h : ms.outline = ms'.outline) :
    (c.onMotions slice ms).outline = (c.onMotions slice ms').outline := by
  unfold onMotions
  induction c.components generalizing ms ms' with
  | nil => exact h
  | cons k ks ih =>
    apply ih
    rw [← Component.outline_onMotions, h, Component.outline_onMotions]

/-- Apart from orientations, what a CAP type makes of motions does not depend on those. -/
theorem outline_onMotionsN_congr (c : Cap) (slice : Slice) (n : Nat) {ms ms' : Motions}
    (h : ms.outline = ms'.outline) :
    (c.onMotionsN slice n ms).outline = (c.onMotionsN slice n ms').outline := by
  induction n with
  | zero => exact h
  | succ n ih => exact outline_onMotions_congr c slice ih

end Cap

def Duo.Every (P : Motion → Prop) (ms : Motions) : Prop := ∀ a m, ms.get a = some m → P m

theorem Duo.Every.map {P : Motion → Prop} {f : Motion → Motion} {ms : Motions}
    (hm : ms.Every P) (hf : ∀ {m}, P m → P (f m)) :
    Duo.Every P (Duo.map (Option.map f) ms) := by
  intro a m ha
  rw [Duo.get_map] at ha
  obtain ⟨m, hget, rfl⟩ := Option.map_eq_some_iff.mp ha
  exact hf (hm a m hget)

/-- A property of motions that every symmetry keeps. -/
structure Motion.IsCarried (P : Motion → Prop) : Prop where
  rotated : ∀ {m} (slice : Slice), P m → P (m.rotated slice.steps)
  mirrored : ∀ {m}, P m → P m.mirrored
  complement : ∀ {m}, P m → P m.complement

/-- A property of motions that every symmetry keeps, and that does not depend on orientations. -/
structure Motion.IsKept (P : Motion → Prop) : Prop extends Motion.IsCarried P where
  outline : ∀ {m m'}, m'.outline = m.outline → P m → P m'

namespace Cap

variable {P : Motion → Prop} {ms ms' : Motions}

theorem Component.every_onMotions (h : Motion.IsCarried P) (slice : Slice) (k : Component)
    (hm : ms.Every P) : (k.onMotions slice ms).Every P := by
  cases k with
  | rotated => exact hm.map (h.rotated slice)
  | mirrored => exact hm.map h.mirrored
  | complementary => exact hm.map h.complement
  | swapped =>
    intro a m ha
    cases a with
    | blue => exact hm .red m ha
    | red => exact hm .blue m ha

theorem every_onMotions (h : Motion.IsCarried P) (c : Cap) (slice : Slice) (hm : ms.Every P) :
    (c.onMotions slice ms).Every P := by
  unfold onMotions
  induction c.components generalizing ms with
  | nil => exact hm
  | cons k ks ih => exact ih (Component.every_onMotions h slice k hm)

/-- What symmetries keep of motions holds of their images. -/
theorem every_onMotionsN (h : Motion.IsCarried P) (c : Cap) (slice : Slice) (n : Nat)
    (hm : ms.Every P) : (c.onMotionsN slice n ms).Every P := by
  induction n with
  | zero => exact hm
  | succ n ih => exact every_onMotions h c slice ih

end Cap

/-- What symmetries keep of motions holds of others that differ in orientations only. -/
theorem Duo.Every.of_outline {P : Motion → Prop} {ms ms' : Motions} (h : Motion.IsKept P)
    (ho : ms'.outline = ms.outline) (hm : ms.Every P) : ms'.Every P := by
  intro a m' ha
  have hget := congrArg (·.get a) ho
  simp only [Duo.outline, Duo.get_map, ha, Option.map_some] at hget
  obtain ⟨m, hm', he⟩ := Option.map_eq_some_iff.mp hget.symm
  exact h.outline he.symm (hm a m hm')

end KineticAlphabet
