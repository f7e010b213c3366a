import KineticAlphabet.Proofs.Period
/-!
Hands and motions some slices later. A CAP type changes the motions one by one and hands them to the
other actor if it exchanges the actors, so after some slices they are with the other actor just
where that happened an odd number of times. On the way no symmetry touches turns, blend and path, or
takes a location off its grid. Their hands are where the hands alone would have been taken.
-/
namespace KineticAlphabet

namespace Duo

variable {α β : Type}

def exchanged (d : Duo α) : Bool → Duo α
  | true => d.swap
  | false => d

theorem map_exchanged (f : α → β) (d : Duo α) (b : Bool) :
    (d.exchanged b).map f = (d.map f).exchanged b := by
  cases b <;> rfl

theorem exchanged_exchanged (d : Duo α) (b b' : Bool) :
    (d.exchanged b).exchanged b' = d.exchanged (b ^^ b') := by
  cases b <;> cases b' <;> rfl

end Duo

/-- What every symmetry leaves as it is: turns, blend and path, and the grids of both locations. -/
structure Motion.Alike (m m' : Motion) : Prop where
  turns : m'.turns = m.turns
  blend : m'.blend = m.blend
  path : m'.path = m.path
  startGrid : m'.startLocation.grid = m.startLocation.grid
  endGrid : m'.endLocation.grid = m.endLocation.grid

namespace Motion

theorem Alike.refl (m : Motion) : m.Alike m := ⟨rfl, rfl, rfl, rfl, rfl⟩

theorem isCarried_alike (m : Motion) : IsCarried m.Alike where
  rotated slice h := by
    have heven : (slice.steps : Int) % 2 = 0 := by cases slice <;> rfl
    exact { h with
      startGrid := (Location.grid_rotated _ heven).trans h.startGrid
      endGrid := (Location.grid_rotated _ heven).trans h.endGrid }
  mirrored h := { h with
    startGrid := (Location.grid_mirrored _).trans h.startGrid
    endGrid := (Location.grid_mirrored _).trans h.endGrid }
  complement {m'} h := by
    rcases m' with ⟨_ | _ | _ | _ | _⟩ <;> exact ⟨h.turns, h.blend, h.path, h.startGrid, h.endGrid⟩

variable {P : Motion → Prop} {m : Motion}

/-- What symmetries keep of motions holds of a motion that they are applied to. -/
theorem IsCarried.onMotion (h : IsCarried P) (c : Cap) (slice : Slice) (hm : P m) :
    P (c.onMotion slice m) := by
  unfold Cap.onMotion
  induction c.components generalizing m with
  | nil => exact hm
  | cons k ks ih =>
    apply ih
    cases k with
    | rotated => exact h.rotated slice hm
    | mirrored => exact h.mirrored hm
    | swapped => exact hm
    | complementary => exact h.complement hm

theorem IsCarried.iterate (h : IsCarried P) (c : Cap) (slice : Slice) (n : Nat) (hm : P m) :
    P ((c.onMotion slice)^[n] m) := by
  induction n with
  | zero => exact hm
  | succ n ih =>
    rw [Function.iterate_succ_apply']
    exact h.onMotion c slice ih

end Motion

namespace Cap

/-- Whether the motions are with the other actor some slices later. -/
def exchanges (c : Cap) (n : Nat) : Bool := c.has .swapped && n % 2 = 1

theorem exchanges_succ (c : Cap) (n : Nat) :
    c.exchanges (n + 1) = (c.exchanges n ^^ c.has .swapped) := by
  unfold exchanges
  rcases Nat.mod_two_eq_zero_or_one n with h | h <;> cases c.has .swapped <;>
    simp [Nat.add_mod, h]

/-- Some slices later the motions have been changed one by one as often, and they may be with the
other actor. -/
theorem onMotionsN_eq (c : Cap) (slice : Slice) (n : Nat) (ms : Motions) :
    c.onMotionsN slice n ms =
      (ms.exchanged (c.exchanges n)).map (Option.map ((c.onMotion slice)^[n])) := by
  induction n with
  | zero => simp [onMotionsN, exchanges, Duo.exchanged, Duo.map]
  | succ n ih =>
    have hstep : c.onMotions slice (c.onMotionsN slice n ms) =
        ((c.onMotionsN slice n ms).exchanged (c.has .swapped)).map
          (Option.map (c.onMotion slice)) := by
      rw [onMotions_eq]
      cases c.has .swapped <;> rfl
    rw [onMotionsN, hstep, ih, ← Duo.map_exchanged, Duo.exchanged_exchanged, ← exchanges_succ,
      Function.iterate_succ']
    simp only [Duo.map, Option.map_map]

/-- Both motions are still there some slices later. A place of them is where it is taken alone, and
what every symmetry leaves as it is has stayed with each. -/
theorem exists_onMotionsN (c : Cap) (slice : Slice) (n : Nat) (d : Duo Motion) :
    ∃ d' : Duo Motion, c.onMotionsN slice n (d.map some) = d'.map some ∧
      (∀ place, Motion.IsPlace place → d'.map place = c.onHandsN slice n (d.map place)) ∧
      ∀ a, ((d.exchanged (c.exchanges n)).get a).Alike (d'.get a) := by
  let d' := (d.exchanged (c.exchanges n)).map (c.onMotion slice)^[n]
  have hd' : c.onMotionsN slice n (d.map some) = d'.map some := by
    rw [onMotionsN_eq, ← Duo.map_exchanged]
    rfl
  refine ⟨d', hd', fun place hplace => ?_, fun a => ?_⟩
  · have hhands := hands?_onMotionsN hplace c slice n (d.map some)
    rw [hd'] at hhands
    exact Option.some.inj hhands
  · rw [Duo.get_map]
    exact (Motion.isCarried_alike _).iterate c slice n (.refl _)

/-- Some slices later both motions start and end where the hands alone would have been taken. What
every symmetry leaves as it is has stayed with each motion, which is with the other actor if the
actors were exchanged an odd number of times. In the same way hands alone stay on their grids. -/
theorem onMotionsN_agrees (c : Cap) (slice : Slice) (n : Nat) (d : Duo Motion) :
    (∃ d' : Duo Motion, c.onMotionsN slice n (d.map some) = d'.map some ∧
      d'.map Motion.startLocation = c.onHandsN slice n (d.map Motion.startLocation) ∧
      d'.map Motion.endLocation = c.onHandsN slice n (d.map Motion.endLocation) ∧
      ∀ a, ((d.exchanged (c.exchanges n)).get a).Alike (d'.get a)) ∧
    ∀ (hands : Duo Location) (a : Actor), ((c.onHandsN slice n hands).get a).grid =
      ((hands.exchanged (c.exchanges n)).get a).grid := by
  constructor
  · obtain ⟨d', hd', hplace, halike⟩ := c.exists_onMotionsN slice n d
    exact ⟨d', hd', hplace _ Motion.isPlace_startLocation, hplace _ Motion.isPlace_endLocation,
      halike⟩
  · intro hands a
    -- hands alone go as those of motions that stay
    let still : Duo Motion := hands.map fun l => .staticAt l .inward
    obtain ⟨d', -, hplace, halike⟩ := c.exists_onMotionsN slice n still
    have hstart : d'.map Motion.startLocation = c.onHandsN slice n hands :=
      hplace _ Motion.isPlace_startLocation
    have hexchanged : hands.exchanged (c.exchanges n) =
        (still.exchanged (c.exchanges n)).map Motion.startLocation :=
      (Duo.map_exchanged Motion.startLocation still _).symm
    rw [← hstart, hexchanged, Duo.get_map, Duo.get_map]
    exact (halike a).startGrid

end Cap

end KineticAlphabet
