import KineticAlphabet.Proofs.Building
/-!
What one run does. Picks that succeed one after another, each from where the one before left the
source, make a trace. Freeform generation and the search for a slice follow a trace until they have
all their beats or a pick fails, and a longer run goes on from any place of its trace. What comes
out is then the outcome of the search, named and described, because the validity check at the end
refuses nothing.
-/
namespace KineticAlphabet.Generation

open KineticAlphabet.Random

variable {σ : Type} {source : Source σ} {c : Config} {start b : Beat} {beats : List Beat}
  {goal : Nat → Option (Duo Location)} {search₀ search search' : Search} {s₀ s s' : σ}

/-- A computation after another runs from the state that this left. -/
theorem run_bind_of_eq {α β : Type} {x : StateM σ α} {f : α → StateM σ β} {a : α}
    (h : x.run s = (a, s')) : (x >>= f).run s = (f a).run s' := by
  rw [StateT.run_bind, h]
  rfl

/-- Picks that succeeded one after another, from a search and a state of the source: the beats that
they gave, and the search and the state that they left. How many beats there are tells the goal of
the next. -/
inductive Picks (source : Source σ) (c : Config) (start : Beat)
    (goal : Nat → Option (Duo Location)) (search₀ : Search) (s₀ : σ) :
    List Beat → Search → σ → Prop
  | nil : Picks source c start goal search₀ s₀ [] search₀ s₀
  | snoc {beats : List Beat} {search search' : Search} {s s' : σ} {b : Beat}
      (h : Picks source c start goal search₀ s₀ beats search s)
      (hb : (pick source c start beats (goal beats.length) search).run s =
        ((some b, search'), s')) :
      Picks source c start goal search₀ s₀ (beats ++ [b]) search' s'

namespace Picks

/-- What a trace gives are picked beats. -/
theorem picked (h : Picks source c start goal search₀ s₀ beats search s)
    (hfree : search₀.locks = .free) : Picked c start beats search.locks := by
  induction h with
  | nil =>
    rw [hfree]
    exact .nil
  | @snoc beats search search' s s' b h hb ih =>
    have hstep := pick_spec source (c := c) start beats (goal beats.length) search s
    rw [hb] at hstep
    exact ih.snoc hstep

/-- The beginning of a trace is a trace. -/
theorem take (h : Picks source c start goal search₀ s₀ beats search s) (n : Nat) :
    ∃ search' s', Picks source c start goal search₀ s₀ (beats.take n) search' s' := by
  induction h with
  | nil => exact ⟨search₀, s₀, by simpa using .nil⟩
  | @snoc beats search search' s s' b h hb ih =>
    by_cases hn : n ≤ beats.length
    · rw [List.take_append_of_le_length hn]
      exact ih
    · have hall : (beats ++ [b]).length ≤ n := by
        rw [List.length_append, List.length_singleton]
        omega
      rw [List.take_of_length_le hall]
      exact ⟨search', s', h.snoc hb⟩

end Picks

theorem freeform_of_some {n : Nat}
    (hb : (pick source c start beats none search).run s = ((some b, search'), s')) :
    (freeform source c start (n + 1) beats search).run s =
      (freeform source c start n (beats ++ [b]) search').run s' := by
  rw [freeform, run_bind_of_eq hb]

theorem freeform_of_none {n : Nat}
    (hb : (pick source c start beats none search).run s = ((none, search'), s')) :
    (freeform source c start (n + 1) beats search).run s =
      (.error (exhausted (beats.length + 1) search'.attempts start beats), s') := by
  rw [freeform, run_bind_of_eq hb]
  rfl

/-- Freeform generation goes on from any place of its trace. -/
theorem Picks.freeform_eq (h : Picks source c start (fun _ => none) search₀ s₀ beats search s)
    (n : Nat) : (freeform source c start (beats.length + n) [] search₀).run s₀ =
      (freeform source c start n beats search).run s := by
  induction h generalizing n with
  | nil => simp
  | @snoc beats search search' s s' b h hb ih =>
    have hlen : (beats ++ [b]).length + n = beats.length + (n + 1) := by
      rw [List.length_append, List.length_singleton]
      omega
    rw [hlen, ih, freeform_of_some hb]

/-- Freeform generation follows a trace until it has all its beats or a pick fails. -/
theorem Picks.freeform_run (h : Picks source c start (fun _ => none) search₀ s₀ beats search s)
    (n : Nat) :
    (∃ all search' s', Picks source c start (fun _ => none) search₀ s₀ all search' s' ∧
      all.length = beats.length + n ∧
      (freeform source c start n beats search).run s = (.ok all, s')) ∨
    ∃ part search' s' search'' s'',
      Picks source c start (fun _ => none) search₀ s₀ part search' s' ∧
      part.length < beats.length + n ∧
      (pick source c start part none search').run s' = ((none, search''), s'') ∧
      (freeform source c start n beats search).run s =
        (.error (exhausted (part.length + 1) search''.attempts start part), s'') := by
  induction n generalizing beats search s with
  | zero => exact .inl ⟨beats, search, s, h, rfl, rfl⟩
  | succ n ih =>
    rcases hr : (pick source c start beats none search).run s with ⟨⟨b?, search'⟩, s'⟩
    cases b? with
    | none =>
      refine .inr ⟨beats, search, s, search', s', h, ?_, hr, freeform_of_none hr⟩
      exact Nat.lt_add_of_pos_right (Nat.succ_pos n)
    | some b =>
      have hlen : (beats ++ [b]).length + n = beats.length + (n + 1) := by
        rw [List.length_append, List.length_singleton]
        omega
      rw [freeform_of_some hr, ← hlen]
      exact ih (h.snoc hr)

/-- The goal of each beat of a slice: only the last has one. -/
def sliceGoal (c : Config) (goal : Duo Location) (before : Nat) : Option (Duo Location) :=
  if before + 1 = c.sliceLength then some goal else none

/-- The search for a slice follows a trace until it has all its beats or a pick fails. -/
theorem Picks.slice_run {target : Duo Location}
    (h : Picks source c start (sliceGoal c target) search₀ s₀ beats search s) (n : Nat)
    (hn : beats.length + n = c.sliceLength) :
    (∃ part search' s', Picks source c start (sliceGoal c target) search₀ s₀ part search' s' ∧
      part.length = c.sliceLength ∧
      (slice source c start target n beats search).run s = ((part, search'), s')) ∨
    ∃ part search' s' search'' s'',
      Picks source c start (sliceGoal c target) search₀ s₀ part search' s' ∧
      part.length < c.sliceLength ∧
      (pick source c start part (sliceGoal c target part.length) search').run s' =
        ((none, search''), s'') ∧
      (slice source c start target n beats search).run s = ((part, search''), s'') := by
  induction n generalizing beats search s with
  | zero => exact .inl ⟨beats, search, s, h, hn, rfl⟩
  | succ n ih =>
    have hgoal : (if n = 0 then some target else none) = sliceGoal c target beats.length := by
      simp only [sliceGoal, ← hn]
      congr 1
      simp
    rcases hr : (pick source c start beats (sliceGoal c target beats.length) search).run s with
      ⟨⟨b?, search'⟩, s'⟩
    rw [slice, hgoal, run_bind_of_eq hr]
    cases b? with
    | none =>
      refine .inr ⟨beats, search, s, search', s', h, ?_, hr, rfl⟩
      rw [← hn]
      exact Nat.lt_add_of_pos_right (Nat.succ_pos n)
    | some b =>
      refine ih (h.snoc hr) ?_
      rw [List.length_append, List.length_singleton, ← hn]
      omega

theorem Started.of_drawStart (hs : (drawStart source c).run s = (start, s')) : Started c start := by
  have h := drawStart_spec source (c := c) s
  rw [hs] at h
  exact h

/-- The validity check refuses nothing, so the outcome of the search is what comes out. -/
theorem generate_run (hc : c.check = .ok ()) (hs : (drawStart source c).run s = (start, s')) :
    ((generate source c).run s).1 =
      (((beatsAfter source c start).run s').1).map (finish c start) := by
  have ha := Config.check_eq_ok_iff.mp hc
  have hstart := Started.of_drawStart hs
  have hbeats := beatsAfter_spec source ha hstart s'
  unfold generate
  rw [hc]
  dsimp only
  rw [run, run_bind_of_eq hs]
  rcases hr : (beatsAfter source c start).run s' with ⟨r, s''⟩
  rw [hr] at hbeats
  rw [run_bind_of_eq hr]
  rcases hbeats with ⟨beats, rfl, hb⟩ | ⟨⟨beat, made, beats, rfl⟩, -⟩
  · dsimp only
    rw [hb.validate ha hstart]
    rfl
  · rfl

theorem generate_run_freeform (hc : c.check = .ok ()) (hm : c.mode = .freeform)
    (hs : (drawStart source c).run s = (start, s')) :
    ((generate source c).run s).1 =
      (((freeform source c start c.length [] ⟨.free, 0⟩).run s').1).map (finish c start) := by
  rw [generate_run hc hs, beatsAfter, hm]

end KineticAlphabet.Generation
