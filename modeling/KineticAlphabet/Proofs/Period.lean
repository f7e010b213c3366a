import KineticAlphabet.Proofs.Consistency
import Mathlib.Data.Set.Function
/-!
How often a CAP type is applied until everything is as before. Mirroring, exchanging the actors and
exchanging pro and anti are undone by doing them again, and the last two go with everything else. In
the mirror a turn of the grid goes the other way round, so a type that mirrors is undone by itself
whether it turns the grid or not. One that only turns has come round after all slices.
-/
namespace KineticAlphabet

namespace Motion

theorem rotated_rotated (m : Motion) (i j : Nat) : (m.rotated i).rotated j = m.rotated (i + j) := by
  simp only [rotated, rederive, Location.rotated_rotated, Int.natCast_add, derivedEnd]

/-- A whole turn of the grid changes nothing but an orientation that did not follow. -/
theorem rotated_of_dvd (m : Motion) {i : Nat} (h : 8 ∣ i) : m.rotated i = m.rederive := by
  have hturn : ((i : Nat) : Int) % 8 = 0 := by omega
  simp only [rotated, rederive, Location.rotated_eq_self _ hturn, derivedEnd]

/-- In the mirror a turn goes the other way round. -/
theorem rotated_mirrored_rotated (m : Motion) (i : Nat) :
    ((m.rotated i).mirrored).rotated i = m.mirrored := by
  have hback : ∀ l : Location, (l.rotated i).mirrored.rotated i = l.mirrored := by
    intro l
    rw [Location.mirrored_rotated, Location.rotated_rotated]
    exact Location.rotated_eq_self _ (by omega)
  simp only [rotated, mirrored, rederive, hback, derivedEnd]

theorem mirrored_mirrored (m : Motion) : m.mirrored.mirrored = m.rederive := by
  simp only [mirrored, rederive, Location.mirrored_mirrored, Rotation.reversed_reversed,
    Orientation.mirrored_mirrored, derivedEnd]

theorem complement_rotated (m : Motion) (i : Nat) :
    (m.rotated i).complement = m.complement.rotated i := by
  rcases m with ⟨_ | _ | _ | _ | _⟩ <;> rfl

theorem complement_mirrored (m : Motion) : m.mirrored.complement = m.complement.mirrored := by
  rcases m with ⟨_ | _ | _ | _ | _⟩ <;> rfl

theorem complement_rederive (m : Motion) : m.rederive.complement = m.complement.rederive := by
  rcases m with ⟨_ | _ | _ | _ | _⟩ <;> rfl

theorem Consistent.complement_complement {m : Motion} (h : m.Consistent) :
    m.complement.complement = m := by
  have hself := (rederive_eq_self_iff m).mpr h
  rcases m with ⟨t, blend, start, stop, turns, spin, o, o', path⟩
  cases t with
  | pro | anti => cases spin <;> exact hself
  | static | dash | float => rfl

end Motion

/-- Maps that agree on the motions that are there give the same motions. -/
theorem Duo.Every.map_congr {P : Motion → Prop} {f g : Motion → Motion} {ms : Motions}
    (h : ms.Every P) (hfg : ∀ m, P m → f m = g m) :
    Duo.map (Option.map f) ms = Duo.map (Option.map g) ms :=
  Duo.ext (Option.map_congr fun m hm => hfg m (h .blue m hm))
    (Option.map_congr fun m hm => hfg m (h .red m hm))

def Duo.rotated (ms : Motions) (i : Nat) : Motions := ms.map (Option.map (·.rotated i))

theorem Duo.rotated_rotated (ms : Motions) (i j : Nat) :
    (ms.rotated i).rotated j = ms.rotated (i + j) := by
  simp [rotated, map, Function.comp_def, Motion.rotated_rotated]

theorem Duo.Every.rotated {ms : Motions} (h : ms.Every Motion.Consistent) (i : Nat) :
    (ms.rotated i).Every Motion.Consistent :=
  h.map fun _ => Motion.consistent_rederive _

/-- A whole turn of the grid changes nothing. -/
theorem Duo.Every.rotated_of_dvd {ms : Motions} (h : ms.Every Motion.Consistent) {i : Nat}
    (hi : 8 ∣ i) : ms.rotated i = ms := by
  rw [Duo.rotated, h.map_congr fun m hm =>
    (m.rotated_of_dvd hi).trans ((Motion.rederive_eq_self_iff m).mpr hm)]
  simp [Duo.map]

namespace Cap

def Component.onMotion (slice : Slice) : Component → Motion → Motion
  | rotated, m => m.rotated slice.steps
  | mirrored, m => m.mirrored
  | swapped, m => m
  | complementary, m => m.complement

/-- What a CAP type does to the motion of one actor, whoever has it afterwards. -/
def onMotion (c : Cap) (slice : Slice) (m : Motion) : Motion :=
  c.components.foldl (fun m k => k.onMotion slice m) m

/-- A CAP type changes the motions one by one, and may exchange the actors. -/
theorem onMotions_eq (c : Cap) (slice : Slice) (ms : Motions) : c.onMotions slice ms =
    (if c.has .swapped then ms.swap else ms).map (Option.map (c.onMotion slice)) := by
  rcases ms with ⟨blue, red⟩
  cases c <;> cases blue <;> cases red <;> rfl

/-- Whether a CAP type turns the grid and does not mirror it, so that its turns add up. -/
def addsTurns (c : Cap) : Bool := c.has .rotated && !c.has .mirrored

/-- Applied twice, a CAP type only turns the grid, if it does anything. -/
theorem onMotion_onMotion (c : Cap) (slice : Slice) {m : Motion} (h : m.Consistent) :
    c.onMotion slice (c.onMotion slice m) =
      if c.addsTurns then m.rotated (2 * slice.steps) else m := by
  have hself := (Motion.rederive_eq_self_iff m).mpr h
  -- pro and anti are exchanged first, so that the turns and the mirrors meet
  cases c <;> simp [onMotion, components, addsTurns, has, Component.onMotion,
    Motion.complement_rotated, Motion.complement_mirrored, Motion.complement_rederive,
    h.complement_complement, Nat.two_mul, Motion.rotated_rotated, Motion.rotated_mirrored_rotated,
    Motion.mirrored_mirrored, hself]

variable {ms : Motions}

theorem onMotions_onMotions (c : Cap) (slice : Slice) (h : ms.Every Motion.Consistent) :
    c.onMotions slice (c.onMotions slice ms) =
      if c.addsTurns then ms.rotated (2 * slice.steps) else ms := by
  have htwice : c.onMotions slice (c.onMotions slice ms) =
      ms.map (Option.map fun m => c.onMotion slice (c.onMotion slice m)) := by
    rw [onMotions_eq, onMotions_eq]
    rcases ms with ⟨blue, red⟩
    cases c.has .swapped <;> simp [Duo.map, Duo.swap, Function.comp_def]
  rw [htwice, h.map_congr fun m hm => c.onMotion_onMotion slice hm]
  split
  · rfl
  · simp [Duo.map]

/-- The same any even number of times. -/
theorem onMotionsN_even (c : Cap) (slice : Slice) (h : ms.Every Motion.Consistent) (i : Nat) :
    c.onMotionsN slice (2 * i) ms =
      if c.addsTurns then ms.rotated (2 * i * slice.steps) else ms := by
  induction i with
  | zero => simp [onMotionsN, h.rotated_of_dvd]
  | succ i ih =>
    have hstep : c.onMotionsN slice (2 * (i + 1)) ms =
        c.onMotions slice (c.onMotions slice (c.onMotionsN slice (2 * i) ms)) := rfl
    rw [hstep, ih]
    by_cases ht : c.addsTurns
    · rw [if_pos ht, if_pos ht, onMotions_onMotions c slice (h.rotated _), if_pos ht,
        Duo.rotated_rotated, Nat.mul_succ, Nat.add_mul]
    · rw [if_neg ht, if_neg ht, onMotions_onMotions c slice h, if_neg ht]

/-- After all slices the motions are as they were. -/
theorem onMotionsN_repeats (c : Cap) (slice : Slice) (h : ms.Every Motion.Consistent) :
    c.onMotionsN slice slice.repeats ms = ms := by
  obtain ⟨i, hi⟩ : ∃ i, slice.repeats = 2 * i := by
    cases slice
    · exact ⟨1, rfl⟩
    · exact ⟨2, rfl⟩
  have hwhole : 2 * i * slice.steps = 8 := by rw [← hi, Nat.mul_comm, slice.steps_mul_repeats]
  rw [hi, onMotionsN_even c slice h, hwhole, h.rotated_of_dvd (Nat.dvd_refl 8), ite_self]

theorem onMotionsN_add (c : Cap) (slice : Slice) (i j : Nat) (ms : Motions) :
    c.onMotionsN slice (i + j) ms = c.onMotionsN slice i (c.onMotionsN slice j ms) := by
  induction i with
  | zero => rw [Nat.zero_add, onMotionsN]
  | succ i ih => rw [Nat.succ_add, onMotionsN, onMotionsN, ih]

/-- What was done for some of the slices is undone by going on to the last. -/
theorem onMotionsN_sub (c : Cap) (slice : Slice) {k : Nat} (hk : k ≤ slice.repeats)
    (h : ms.Every Motion.Consistent) :
    c.onMotionsN slice (slice.repeats - k) (c.onMotionsN slice k ms) = ms := by
  rw [← onMotionsN_add, Nat.sub_add_cancel hk, onMotionsN_repeats c slice h]

/-- A CAP type takes the pairs of consistent motions one to one onto each other. -/
theorem bijOn_onMotions (c : Cap) (slice : Slice) :
    Set.BijOn (c.onMotions slice) {ms | ms.Every Motion.Consistent}
      {ms | ms.Every Motion.Consistent} := by
  have hpos : 1 ≤ slice.repeats := by cases slice <;> decide
  have hinverse : Set.InvOn (c.onMotionsN slice (slice.repeats - 1)) (c.onMotions slice)
      {ms | ms.Every Motion.Consistent} {ms | ms.Every Motion.Consistent} := by
    constructor
    · intro ms h
      exact c.onMotionsN_sub slice hpos h
    · intro ms h
      have hall := c.onMotionsN_repeats slice h
      rwa [← Nat.sub_add_cancel hpos] at hall
  exact hinverse.bijOn (fun ms h => every_onMotions Motion.isCarried_consistent c slice h)
    fun ms h => every_onMotionsN Motion.isCarried_consistent c slice _ h

/-- Every CAP type has come round after all slices, for hands and for consistent motions alike. So
it takes pairs of consistent motions one to one onto each other, and each repeat is undone by going
on to the last. -/
theorem comes_round (c : Cap) (slice : Slice) :
    (∀ ms : Motions, ms.Every Motion.Consistent → c.onMotionsN slice slice.repeats ms = ms) ∧
    (∀ hands : Duo Location, c.onHandsN slice slice.repeats hands = hands) ∧
    Set.BijOn (c.onMotions slice) {ms | ms.Every Motion.Consistent}
      {ms | ms.Every Motion.Consistent} ∧
    ∀ k ≤ slice.repeats, ∀ ms : Motions, ms.Every Motion.Consistent →
      c.onMotionsN slice (slice.repeats - k) (c.onMotionsN slice k ms) = ms :=
  ⟨fun _ h => c.onMotionsN_repeats slice h, c.onHandsN_repeats slice, c.bijOn_onMotions slice,
    fun _ hk _ h => c.onMotionsN_sub slice hk h⟩

/-- An anti shift with one and a half turns, alone in its beat. -/
def loneAnti : Motions := ⟨some ((Motion.shift .anti .n .e .clock).withTurns (.half 3)), none⟩

/-- The first quarter turns it, mirrors it and makes it pro. After all four it is as before, so the
other three bring it back. -/
theorem comes_round_loneAnti : loneAnti.Every Motion.Consistent ∧
    mirroredComplementaryRotated.onMotions .quartered loneAnti ≠ loneAnti ∧
    mirroredComplementaryRotated.onMotionsN .quartered 4 loneAnti = loneAnti ∧
    mirroredComplementaryRotated.onMotionsN .quartered 3
      (mirroredComplementaryRotated.onMotionsN .quartered 1 loneAnti) = loneAnti := by
  have hconsistent : loneAnti.Every Motion.Consistent := by
    rintro (_ | _) _ ⟨⟩
    rfl
  obtain ⟨hround, -, -, hback⟩ := comes_round mirroredComplementaryRotated .quartered
  exact ⟨hconsistent, by decide, hround loneAnti hconsistent,
    hback 1 (by decide) loneAnti hconsistent⟩

end Cap

end KineticAlphabet
