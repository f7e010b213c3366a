import KineticAlphabet.Proofs.Completeness
/-!
The structure of circular sequences. They consist of as many slices as the slice size asks for.
Apart from orientations, which are chained anew, every slice holds what the CAP type makes of the
first as many times as slices come before it, and the hands end where it takes the start position as
often.
-/
namespace KineticAlphabet

/-- In a row of lists of one length an element is found by its list and its place there. -/
theorem getElem?_flatMap_range {α : Type} {f : Nat → List α} {s : Nat}
    (h : ∀ k, (f k).length = s) {n k j : Nat} (hk : k < n) (hj : j < s) :
    ((List.range n).flatMap f)[k * s + j]? = (f k)[j]? := by
  induction n with
  | zero => cases hk
  | succ n ih =>
    have hl := Generation.length_flatMap_range h n
    rw [List.range_succ, List.flatMap_append, List.flatMap_singleton]
    by_cases hkn : k < n
    · have hlt : k * s + j < n * s := calc
        k * s + j < k * s + s := Nat.add_lt_add_left hj _
        _ = (k + 1) * s := (Nat.succ_mul k s).symm
        _ ≤ n * s := Nat.mul_le_mul_right s hkn
      rw [List.getElem?_append_left (by rw [hl]; exact hlt)]
      exact ih hkn
    · have he : k = n := by omega
      subst he
      rw [List.getElem?_append_right (by rw [hl]; exact Nat.le_add_right _ _), hl,
        Nat.add_sub_cancel_left]

/-- The hands at the end do not depend on orientations. -/
theorem Duo.endHands?_outline (ms : Motions) : ms.outline.endHands? = ms.endHands? := by
  rcases ms with ⟨_ | b, _ | r⟩ <;> rfl

namespace Generation

open KineticAlphabet.Random

variable {c : Config} {start : Beat} {first last : Duo Stance} {part beats : List Beat}

theorem getElem?_repeated {k j : Nat} (hk : k < c.slice.repeats) (hj : j < part.length) :
    (repeated c part)[k * part.length + j]? =
      part[j]?.map fun b => c.cap.onMotionsN c.slice k b.motions := by
  rw [repeated, getElem?_flatMap_range (fun _ => List.length_map _) hk hj, List.getElem?_map]

/-- Apart from orientations a slice that is joined to its repeats holds its images. -/
theorem Joined.outline_repeated (h : Joined start (repeated c part) beats last) {k j : Nat}
    (hk : k < c.slice.repeats) {b : Beat} (hb : part[j]? = some b) :
    ∃ later, beats[k * part.length + j]? = some later ∧
      later.motions.outline = (c.cap.onMotionsN c.slice k b.motions).outline := by
  obtain ⟨hj, -⟩ := List.getElem?_eq_some_iff.mp hb
  have ho := congrArg (·[k * part.length + j]?) h.outlines
  simp only [List.getElem?_map, getElem?_repeated hk hj, hb, Option.map_some] at ho
  exact Option.map_eq_some_iff.mp ho

/-- So do they hold the images of the beats that the slice has become. -/
theorem Joined.outline_first (h : Joined start (repeated c part) beats last)
    (hpos : 0 < c.slice.repeats) {k j : Nat} (hk : k < c.slice.repeats) (hj : j < part.length) :
    ∃ b later, beats[j]? = some b ∧ beats[k * part.length + j]? = some later ∧
      later.motions.outline = (c.cap.onMotionsN c.slice k b.motions).outline := by
  have hb : part[j]? = some part[j] := List.getElem?_eq_getElem hj
  obtain ⟨b, hbeat, ho⟩ := h.outline_repeated hpos hb
  obtain ⟨later, hlater, ho'⟩ := h.outline_repeated hk hb
  rw [Nat.zero_mul, Nat.zero_add] at hbeat
  refine ⟨b, later, hbeat, hlater, ?_⟩
  rw [ho']
  exact (c.cap.outline_onMotionsN_congr c.slice k ho).symm

/-- The last beat of a slice that was picked ends at the image of the start position. -/
theorem Circled.endHands?_last (h : Circled c start first part beats)
    (hs : start.endState? = some first) {b : Beat} (hb : part.getLast? = some b) :
    b.motions.endHands? = some (c.cap.onHands c.slice first.locations) := by
  obtain ⟨locks, hp⟩ := h.picked
  obtain ⟨mss, state, hj⟩ := hp.exists_joined hs
  have hb' := hb
  rw [List.getLast?_eq_getElem?] at hb'
  obtain ⟨-, before, after, hcarries, -⟩ := hj.getElem? hb'
  have hreach := h.reaches
  simp only [lastState?, hb, Option.bind_some, hcarries.endState?, Option.some_or,
    Option.map_some] at hreach
  rw [hcarries.endHands?, hreach]

/-- Every slice ends where the CAP type takes the start position, once more than slices come before
it. -/
theorem Circled.endHands? (h : Circled c start first part beats)
    (hs : start.endState? = some first) (hpos : 0 < part.length) {k : Nat}
    (hk : k < c.slice.repeats) : ∃ later, beats[(k + 1) * part.length - 1]? = some later ∧
      later.motions.endHands? = some (c.cap.onHandsN c.slice (k + 1) first.locations) := by
  obtain ⟨last, hj, -⟩ := h.joined
  have hlast : part.length - 1 < part.length := Nat.sub_lt hpos Nat.one_pos
  have hb : part[part.length - 1]? = some part[part.length - 1] := List.getElem?_eq_getElem hlast
  obtain ⟨later, hlater, ho⟩ := hj.outline_repeated hk hb
  have hi : k * part.length + (part.length - 1) = (k + 1) * part.length - 1 := by
    rw [Nat.succ_mul]
    omega
  refine ⟨later, hi ▸ hlater, ?_⟩
  rw [← List.getLast?_eq_getElem?] at hb
  rw [← Duo.endHands?_outline, ho, Duo.endHands?_outline, Duo.endHands?_eq,
    Cap.hands?_onMotionsN Motion.isPlace_endLocation, ← Duo.endHands?_eq, h.endHands?_last hs hb,
    Cap.onHandsN_succ]
  rfl

/-- A circular sequence consists of its slices. Apart from orientations each beat of a slice holds
what the CAP type makes of the beat at that place of the first slice, and each slice ends where it
takes the start position. -/
theorem circular_structure {σ : Type} (source : Source σ) (hm : c.mode = .circular) {s : σ}
    {q : Sequence} (h : ((generate source c).run s).1 = .ok q) :
    q.length = c.slice.repeats * c.sliceLength ∧
    (∀ k < c.slice.repeats, ∀ i, 1 ≤ i → i ≤ c.sliceLength → ∃ b later,
      q.beat? i = some b ∧ q.beat? (k * c.sliceLength + i) = some later ∧
      (∃ ms : Duo Motion, later.motions = ms.map some) ∧
      later.motions.outline = (c.cap.onMotionsN c.slice k b.motions).outline) ∧
    ∀ k < c.slice.repeats, ∃ start hands last, q.startPosition = some start ∧
      start.motions.endHands? = some hands ∧
      q.beat? ((k + 1) * c.sliceLength) = some last ∧
      last.motions.endHands? = some (c.cap.onHandsN c.slice (k + 1) hands) := by
  obtain ⟨start, beats, ha, hs, hb, rfl⟩ := exists_built source h
  have hbeats : (finish c start beats).beats = beats := by rw [finish_beats, hb.renumber_eq ha hs]
  have hbeat : ∀ i, (finish c start beats).beat? (i + 1) = beats[i]? := by
    intro i
    rw [Sequence.beat?, hbeats]
  cases hb with
  | freely hm' => rw [hm] at hm'; cases hm'
  | @circled first part _ hf hc =>
    obtain ⟨last, hj, -⟩ := hc.joined
    have hlen := hc.length_eq
    have hpos := ha.sliceLength_pos hm
    have hrepeats : 0 < c.slice.repeats := by cases c.slice <;> decide
    refine ⟨?_, ?_, ?_⟩
    · rw [Sequence.length, hbeats, hj.length_eq, length_repeated, hlen]
    · intro k hk i h1 hi
      obtain ⟨j, rfl⟩ := Nat.exists_eq_add_of_le' h1
      obtain ⟨b, later, hbj, hlater, ho⟩ := hj.outline_first hrepeats hk (hlen ▸ hi)
      obtain ⟨-, before, after, hcarries, -⟩ := hj.getElem? hlater
      obtain ⟨ms, hms, -⟩ := hcarries.motions
      rw [hlen] at hlater
      refine ⟨b, later, ?_, ?_, ⟨ms, hms⟩, ho⟩
      · rw [hbeat, hbj]
      · rw [← Nat.add_assoc, hbeat, hlater]
    · intro k hk
      obtain ⟨hands, -, -, hcarries⟩ := hs.exists_carries
      have hstart := hcarries.endHands?
      rw [Option.some.inj (hcarries.endState?.symm.trans hf)] at hstart
      obtain ⟨later, hlater, he⟩ := hc.endHands? hf (hlen ▸ hpos) hk
      have hi : (k + 1) * c.sliceLength = (k + 1) * part.length - 1 + 1 := by
        rw [hlen]
        exact (Nat.sub_add_cancel (Nat.mul_pos (Nat.succ_pos k) hpos)).symm
      refine ⟨start, first.locations, later, ?_, hstart, ?_, he⟩
      · rw [finish_startPosition, hs.number_eq]
      · rw [hi, hbeat, hlater]

/-- The first seed gives a sequence of two halves. Its nineteenth beat is the mirror image of the
third, with the actors exchanged. -/
theorem circular_structure_advanced : ∃ q,
    ((generate ChaCha.source (Config.advanced.withCap .mirroredSwapped .halved)).run
      (.ofSeed 0)).1 = .ok q ∧ q.length = 32 ∧ ∃ b later,
      q.beat? 3 = some b ∧ q.beat? 19 = some later ∧
      (∃ ms : Duo Motion, later.motions = ms.map some) ∧
      later.motions.outline = (Cap.mirroredSwapped.onMotionsN .halved 1 b.motions).outline := by
  have hc : (Config.advanced.withCap .mirroredSwapped .halved).check = .ok () :=
    Config.check_eq_ok_iff.mpr (Config.admitted_advanced_halved .mirroredSwapped)
  obtain ⟨q, hq⟩ := exists_sequence ChaCha.source hc rfl rfl (.ofSeed 0)
  obtain ⟨hlen, hbeats, -⟩ := circular_structure ChaCha.source rfl hq
  exact ⟨q, hq, hlen, hbeats 1 (by decide) 3 (by decide) (by decide)⟩

end Generation

end KineticAlphabet
