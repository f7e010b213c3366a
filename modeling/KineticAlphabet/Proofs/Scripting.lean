import KineticAlphabet.Proofs.Building
/-!
What generation can come to. A script is a source that answers each draw with the next of a list of
numbers. Whatever turns, spins and floats a motion may be dressed with, some script draws them. So
every run of picks from a start position is what freeform generation comes to on some script, and
what is said about all picked beats says no more than it has to.
-/
namespace KineticAlphabet.Generation

open KineticAlphabet.Random

/-- Draws answered by the numbers of a list, and by zero after its end. A yes is a number that is
not zero. -/
def script : Source (List Nat) where
  upTo _ largest := fun draws =>
    (⟨draws.headD 0 % (largest + 1), Nat.mod_lt _ (Nat.succ_pos largest)⟩, draws.tail)
  yes _ := fun draws => (draws.headD 0 ≠ 0, draws.tail)

/-- On some draws a computation comes to a value, and it leaves the draws after them. -/
def Scripted {α : Type} (x : StateM (List Nat) α) (a : α) : Prop :=
  ∃ draws, ∀ rest, x.run (draws ++ rest) = (a, rest)

namespace Scripted

variable {α β : Type} {x : StateM (List Nat) α} {f : α → StateM (List Nat) β} {a : α} {b : β}

theorem pure : Scripted (Pure.pure a) a := ⟨[], fun _ => rfl⟩

/-- The draws of two computations one after the other are their draws in a row. -/
theorem bind (hx : Scripted x a) (hf : Scripted (f a) b) : Scripted (x >>= f) b := by
  obtain ⟨draws, hx⟩ := hx
  obtain ⟨draws', hf⟩ := hf
  refine ⟨draws ++ draws', fun rest => ?_⟩
  rw [List.append_assoc, StateT.run_bind, hx]
  exact hf rest

theorem map {g : α → β} (hx : Scripted x a) : Scripted (g <$> x) (g a) := by
  obtain ⟨draws, hx⟩ := hx
  refine ⟨draws, fun rest => ?_⟩
  rw [StateT.run_map, hx]
  rfl

theorem upTo (w : Width) {largest : Nat} (i : Fin (largest + 1)) :
    Scripted (script.upTo w largest) i := by
  refine ⟨[i.val], fun rest => ?_⟩
  have hi : ⟨i.val % (largest + 1), Nat.mod_lt _ (Nat.succ_pos largest)⟩ = i :=
    Fin.ext (Nat.mod_eq_of_lt i.isLt)
  exact congrArg (·, rest) hi

theorem yes (chance : Chance) (b : Bool) : Scripted (script.yes chance) b := by
  cases b with
  | false => exact ⟨[0], fun _ => rfl⟩
  | true => exact ⟨[1], fun _ => rfl⟩

end Scripted

variable {c : Config}

theorem drawTurns_scripted {turns : Turns} (h : MayTurn c turns) :
    Scripted (drawTurns script c) turns := by
  unfold drawTurns
  cases h with
  | @whole n hl hn =>
    rw [hl]
    exact (Scripted.upTo .half ⟨n, Nat.lt_succ_of_le hn⟩).bind .pure
  | @half n hl hn =>
    rw [hl]
    exact (Scripted.upTo .full ⟨n, Nat.lt_succ_of_le hn⟩).bind .pure
  | zero h2 h3 =>
    split
    case h_1 h => exact absurd h h2
    case h_2 h => exact absurd h h3
    case h_3 => exact .pure

theorem drawSpin_scripted {turns : Turns} {lock : Option Rotation} {spin : Rotation}
    (h : MaySpin turns lock spin) : Scripted (drawSpin script turns lock) spin := by
  unfold MaySpin at h
  unfold drawSpin
  split
  case isTrue ht =>
    rw [if_pos ht] at h
    rw [h]
    exact .pure
  case isFalse ht =>
    rw [if_neg ht] at h
    cases lock with
    | some locked =>
      rw [h]
      exact .pure
    | none =>
      cases spin with
      | cw => exact (Scripted.yes .half true).bind .pure
      | ccw => exact (Scripted.yes .half false).bind .pure
      | none => cases h

theorem exists_mayTurn (c : Config) : ∃ turns, MayTurn c turns := by
  by_cases h2 : c.level = 2
  · exact ⟨_, .whole h2 (Nat.zero_le _)⟩
  · by_cases h3 : c.level = 3
    · exact ⟨_, .half h3 (Nat.zero_le _)⟩
    · exact ⟨_, .zero h2 h3⟩

theorem dress_scripted {m m' : Motion} {lock : Option Rotation} (h : Dressed c lock m m') :
    Scripted (dress script c m lock) m' := by
  unfold dress
  cases h with
  | @shift turns hm ht =>
    refine (drawTurns_scripted ht).bind ?_
    simp only [hm, if_true]
    split
    · exact (Scripted.yes .fifth false).bind .pure
    · exact .pure
  | float hm hl =>
    obtain ⟨turns, ht⟩ := exists_mayTurn c
    refine (drawTurns_scripted ht).bind ?_
    simp only [hm, hl, if_true]
    exact (Scripted.yes .fifth true).bind .pure
  | @still turns spin hm ht hs =>
    refine (drawTurns_scripted ht).bind ?_
    simp only [hm]
    exact (drawSpin_scripted hs).bind .pure

theorem dressMotions_scripted {locks : Locks} {plain dressed : Duo Motion}
    (h : ∀ a, Dressed c (locks.get a) (plain.get a) (dressed.get a)) :
    Scripted (dressMotions script c locks (plain.map some)) (dressed.map some) := by
  have hb : Scripted (some <$> dress script c plain.blue locks.blue) (some dressed.blue) :=
    .map (dress_scripted (h .blue))
  have hr : Scripted (some <$> dress script c plain.red locks.red) (some dressed.red) :=
    .map (dress_scripted (h .red))
  exact hb.bind (hr.bind .pure)

variable {start : Beat} {beats : List Beat} {locks : Locks}

theorem exists_point {l : Location} (h : l.grid = c.grid) : ∃ i, c.grid.point i = l := by
  have hl := (c.grid.mem_points_iff l).mpr h
  simp only [Grid.points, List.mem_cons, List.not_mem_nil, or_false] at hl
  rcases hl with hl | hl | hl | hl <;> exact ⟨_, hl.symm⟩

theorem drawStart_scripted (h : Started c start) : Scripted (drawStart script c) start := by
  cases h with
  | @intro hands h =>
    obtain ⟨i, hi⟩ := exists_point (h .blue)
    obtain ⟨j, hj⟩ := exists_point (h .red)
    have hh : hands = ⟨c.grid.point i, c.grid.point j⟩ := Duo.ext hi.symm hj.symm
    rw [hh]
    exact (Scripted.upTo .full i).bind ((Scripted.upTo .full j).bind .pure)

/-- Whatever one pick may join is drawn at the first try on some script. -/
theorem pick_scripted {b : Beat} {locks' : Locks} {goal : Option (Duo Location)}
    (h : Step c start goal beats locks b locks') (hpos : 0 < c.maxAttempts) (attempts : Nat) :
    Scripted (pick script c start beats goal ⟨locks, attempts⟩)
      (some b, ⟨locks', attempts + 1⟩) := by
  cases h with
  | @intro state ms hs hd hp =>
    cases hd with
    | @intro plain dressed l hcand hdress =>
      obtain ⟨p, hmem, hplain⟩ := hcand.exists_mem
      obtain ⟨tries, htries⟩ := Nat.exists_eq_succ_of_ne_zero (Nat.ne_of_gt hpos)
      unfold pick
      rw [hs]
      dsimp only
      cases hcands : candidates c state goal with
      | nil =>
        rw [hcands] at hmem
        cases hmem
      | cons first others =>
        rw [hcands] at hmem
        obtain ⟨i, hi, hpi⟩ := List.getElem_of_mem hmem
        have hdraw : Scripted (drawMotions script c first others locks c.maxAttempts attempts)
            (some (dressed.map some), attempts + 1) := by
          rw [htries]
          refine (Scripted.upTo .full ⟨i, hi⟩).bind ?_
          have hm : (first :: others)[i].motions = plain.map some := by rw [hpi, hplain]
          have hms : Scripted (dressMotions script c locks (first :: others)[i].motions)
              (dressed.map some) := by
            rw [hm]
            exact dressMotions_scripted hdress
          refine hms.bind ?_
          rw [if_pos hp]
          exact .pure
        exact hdraw.bind .pure

/-- What may be joined on the way to a goal may be joined without one. -/
theorem Step.withoutGoal {b : Beat} {locks' : Locks} {goal : Option (Duo Location)}
    (h : Step c start goal beats locks b locks') : Step c start none beats locks b locks' := by
  cases h with
  | @intro state ms hs hd hp =>
    refine .intro hs ?_ hp
    cases hd with
    | intro hc hd => exact .intro hc.withoutGoal hd

/-- Where some script leads on from picked beats, some script leads there from the start. -/
theorem freeform_scripted (h : Picked c start beats locks) (hpos : 0 < c.maxAttempts) {n : Nat}
    {r : Except GenerationError (List Beat)}
    (hr : Scripted (freeform script c start n beats ⟨locks, beats.length⟩) r) :
    Scripted (freeform script c start (beats.length + n) [] ⟨.free, 0⟩) r := by
  induction h generalizing n with
  | nil => simpa using hr
  | @snoc beats locks locks' b goal h hb ih =>
    rw [List.length_append, List.length_singleton] at hr ⊢
    rw [Nat.add_assoc, Nat.add_comm 1 n]
    exact ih ((pick_scripted hb.withoutGoal hpos beats.length).bind hr)

/-- In freeform mode the sequence of any picked beats, as many as are asked for, is what generation
comes to on some script. -/
theorem generate_scripted (hc : c.check = .ok ()) (hm : c.mode = .freeform) (hs : Started c start)
    (hp : Picked c start beats locks) (hl : beats.length = c.length) :
    Scripted (generate script c) (.ok (finish c start beats)) := by
  have ha := Config.check_eq_ok_iff.mp hc
  have hbeats : Scripted (beatsAfter script c start) (.ok beats) := by
    have h := freeform_scripted hp ha.attempts_pos (n := 0) .pure
    rw [Nat.add_zero, hl] at h
    unfold beatsAfter
    rw [hm]
    exact h
  have hv := (Built.freely hm hp hl).validate ha hs
  unfold generate
  rw [hc]
  refine (drawStart_scripted hs).bind (hbeats.bind ?_)
  dsimp only
  rw [hv]
  exact .pure

end KineticAlphabet.Generation
