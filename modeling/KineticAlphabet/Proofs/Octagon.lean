import KineticAlphabet.Proofs.Grammar
import KineticAlphabet.Proofs.Symmetry
/-!
The ring of locations is turned and mirrored as a regular octagon is. Steps add up, and only whole
turns leave a location where it is; in the mirror they go the other way round. Between any two
locations there is one number of steps below eight, which turning keeps and mirroring reverses, and
with it the way a hand turns. Every second step changes the grid.
-/
namespace KineticAlphabet.Location

theorem rotated_eq_self_iff (l : Location) {n : Int} : l.rotated n = l ↔ 8 ∣ n := by
  constructor
  · intro h
    have hplace := index_rotated l n
    rw [h] at hplace
    omega
  · intro h
    exact rotated_eq_self l (Int.emod_eq_zero_of_dvd h)

/-- The steps from one location to another lead there. -/
theorem rotated_stepsTo (a b : Location) : a.rotated (a.stepsTo b) = b := by
  apply index_injective
  have hplace := index_rotated a (a.stepsTo b)
  have hsteps := stepsTo_eq a b
  have hb := b.index_lt
  omega

/-- In the mirror the steps are those back, counted round the ring. -/
theorem stepsTo_mirrored_eq (a b : Location) :
    (a.mirrored.stepsTo b.mirrored : Int) = -a.stepsTo b % 8 := by
  have hsteps := stepsTo_mirrored a b
  have hlt := stepsTo_lt a b
  omega

/-- Locations are turned and mirrored as the corners of an octagon: turns add up and come round
after eight steps, the mirror is undone by itself and turns the other way, and a way keeps its steps
and the direction of the hand when it is turned, while both are reversed in the mirror. The grid
changes with every step and never in the mirror. -/
theorem rotated_mirrored_octagon (a b : Location) (m n : Int) :
    (a.rotated m).rotated n = a.rotated (m + n) ∧
    (a.rotated n = a ↔ 8 ∣ n) ∧
    (a.rotated n).mirrored = a.mirrored.rotated (-n) ∧
    a.mirrored.mirrored = a ∧
    (a.rotated (a.stepsTo b) = b ∧ a.stepsTo b < 8) ∧
    ((a.rotated n).stepsTo (b.rotated n) = a.stepsTo b ∧
      (a.rotated n).handRotation (b.rotated n) = a.handRotation b) ∧
    ((a.mirrored.stepsTo b.mirrored : Int) = -a.stepsTo b % 8 ∧
      a.mirrored.handRotation b.mirrored = (a.handRotation b).reversed) ∧
    ((a.rotated n).grid = a.grid ↔ 2 ∣ n) ∧
    a.mirrored.grid = a.grid :=
  ⟨rotated_rotated a m n, rotated_eq_self_iff a, mirrored_rotated a n, mirrored_mirrored a,
    ⟨rotated_stepsTo a b, stepsTo_lt a b⟩,
    ⟨stepsTo_rotated a b n, handRotation_rotated a b n⟩,
    ⟨stepsTo_mirrored_eq a b, handRotation_mirrored a b⟩,
    (grid_rotated_eq_iff a).trans Int.dvd_iff_emod_eq_zero.symm, grid_mirrored a⟩

end KineticAlphabet.Location
