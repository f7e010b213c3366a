import KineticAlphabet.Proofs.Truncating
import KineticAlphabet.Reversal
/-!
How often a path turns back. Following a path keeps the last direction over segments that have none,
and so it counts the neighbours that differ in the list of all directions. That list is read off the
neighbours among the points: a longer path has it in one piece, backwards every direction is the
other one, in the opposite order, and the mirror exchanges right and left. The last two rest on
differences of doubles, of which only the sign changes when they are taken the other way round.
-/
namespace KineticAlphabet

section Neighbours

variable {α β : Type} {xs ys : List α}

@[simp] theorem neighbours_nil : neighbours ([] : List α) = [] := rfl

@[simp] theorem neighbours_singleton (x : α) : neighbours [x] = [] := rfl

theorem neighbours_cons (x : α) (xs : List α) :
    neighbours (x :: xs) = xs.head?.toList.map (x, ·) ++ neighbours xs := by
  cases xs <;> simp [neighbours]

/-- In a row of two lists the last of the first and the first of the second are neighbours too. -/
theorem neighbours_append_cons (xs : List α) (y : α) (ys : List α) :
    neighbours (xs ++ y :: ys) =
      neighbours xs ++ (xs.getLast?.toList.map (·, y) ++ neighbours (y :: ys)) := by
  induction xs with
  | nil => simp [neighbours]
  | cons x xs ih =>
    rw [List.cons_append, neighbours_cons, neighbours_cons, ih]
    cases xs with
    | nil => simp [neighbours]
    | cons x' xs => simp [List.getLast?_cons_cons]

theorem neighbours_isSuffix (xs ys : List α) : neighbours ys <:+ neighbours (xs ++ ys) := by
  cases ys with
  | nil => exact List.nil_suffix
  | cons y ys =>
    rw [neighbours_append_cons, ← List.append_assoc]
    exact List.suffix_append _ _

theorem neighbours_isPrefix (xs ys : List α) : neighbours xs <+: neighbours (xs ++ ys) := by
  cases ys with
  | nil => rw [List.append_nil]
  | cons y ys =>
    rw [neighbours_append_cons]
    exact List.prefix_append _ _

/-- The neighbours in a piece of a list are neighbours there. -/
theorem neighbours_isInfix (h : xs <:+: ys) : neighbours xs <:+: neighbours ys := by
  obtain ⟨before, after, rfl⟩ := h
  exact (neighbours_isSuffix before xs).isInfix.trans (neighbours_isPrefix _ after).isInfix

/-- Backwards every two neighbours have changed places. -/
theorem neighbours_reverse (xs : List α) :
    neighbours xs.reverse = ((neighbours xs).map Prod.swap).reverse := by
  induction xs with
  | nil => rfl
  | cons x xs ih =>
    rw [List.reverse_cons, neighbours_append_cons, ih, List.getLast?_reverse, neighbours_cons x xs]
    cases xs.head? <;> simp

theorem neighbours_map (f : α → β) (xs : List α) :
    neighbours (xs.map f) = (neighbours xs).map (Prod.map f f) := by
  rw [neighbours, ← List.map_tail, List.zip_map, neighbours]

theorem mem_of_mem_neighbours {s : α × α} (h : s ∈ neighbours xs) : s.1 ∈ xs ∧ s.2 ∈ xs := by
  have hpair := List.of_mem_zip (a := s.1) (b := s.2) h
  exact ⟨hpair.1, List.mem_of_mem_tail hpair.2⟩

theorem length_neighbours_le (xs : List α) : (neighbours xs).length ≤ xs.length := by
  rw [neighbours, List.length_zip]
  exact Nat.min_le_left _ _

end Neighbours

section Changes

variable {α β : Type} [DecidableEq α] [DecidableEq β] {ds es : List α}

def changes (ds : List α) : Nat := (neighbours ds).countP fun s => s.1 ≠ s.2

theorem changes_mono (h : ds <:+: es) : changes ds ≤ changes es :=
  (neighbours_isInfix h).sublist.countP_le

theorem changes_reverse (ds : List α) : changes ds.reverse = changes ds := by
  rw [changes, neighbours_reverse, List.countP_reverse, List.countP_map, changes]
  refine List.countP_congr fun s _ => ?_
  have hsame : s.2 = s.1 ↔ s.1 = s.2 := eq_comm
  simp [hsame]

/-- What tells different things apart keeps the changes. -/
theorem changes_map {f : α → β} (hf : ∀ a b, f a = f b → a = b) (ds : List α) :
    changes (ds.map f) = changes ds := by
  rw [changes, neighbours_map, List.countP_map, changes]
  refine List.countP_congr fun s _ => ?_
  have hsame : f s.1 = f s.2 ↔ s.1 = s.2 := ⟨hf s.1 s.2, congrArg f⟩
  simp [hsame]

theorem changes_append_singleton (ds : List α) (d : α) :
    changes (ds ++ [d]) = changes ds + if ds.getLast?.any (· ≠ d) then 1 else 0 := by
  rw [changes, neighbours_append_cons, List.countP_append, List.countP_append, changes]
  cases ds.getLast? with
  | none => simp [neighbours]
  | some last => simp [neighbours, List.countP_singleton]

theorem changes_le_length (ds : List α) : changes ds ≤ ds.length :=
  List.countP_le_length.trans (length_neighbours_le ds)

end Changes

namespace Trail

variable {t : Trail} {ds : List Bool}

/-- What a trail tells of the directions so far: the last one, and how often they changed. -/
structure Tells (t : Trail) (ds : List Bool) : Prop where
  heading : t.heading = ds.getLast?
  changes : t.changes = .ofNat (KineticAlphabet.changes ds)

theorem tells_empty : empty.Tells [] := ⟨rfl, rfl⟩

/-- One more segment adds its direction, if it has one. -/
theorem Tells.follow (h : t.Tells ds) (s : Point × Point) :
    (t.follow s).Tells (ds ++ (s.1.rightward? s.2).toList) := by
  unfold Trail.follow
  cases s.1.rightward? s.2 with
  | none => simpa using h
  | some right =>
    constructor
    · simp
    · rw [Option.toList_some, changes_append_singleton, UInt32.ofNat_add, ← h.changes, ← h.heading]
      dsimp only
      split <;> simp

theorem Tells.run (h : t.Tells ds) (segments : List (Point × Point)) :
    (segments.foldl Trail.follow t).Tells
      (ds ++ segments.filterMap fun s => s.1.rightward? s.2) := by
  induction segments generalizing t ds with
  | nil => simpa using h
  | cons s segments ih =>
    have hrest := ih (h.follow s)
    rw [List.append_assoc] at hrest
    rw [List.foldl_cons, List.filterMap_cons]
    cases hs : s.1.rightward? s.2 <;> simpa [hs] using hrest

end Trail

/-- Which way each segment of a path goes, those apart that hardly go aside. -/
def headings (path : List Point) : List Bool :=
  (neighbours path).filterMap fun s => s.1.rightward? s.2

variable {path longer : List Point}

theorem length_headings_le (path : List Point) : (headings path).length ≤ path.length :=
  (List.length_filterMap_le _ _).trans (length_neighbours_le path)

/-- While 32 bits are enough, following a path counts the changes of its directions. -/
theorem pathReversals_eq (h : path.length < UInt32.size) :
    pathReversals path = min maxReversals (changes (headings path)) := by
  have hrun := (Trail.tells_empty.run (neighbours path)).changes
  have hfit : changes (headings path) < UInt32.size :=
    ((changes_le_length _).trans (length_headings_le path)).trans_lt h
  rw [pathReversals, hrun, List.nil_append, ← headings, UInt32.toNat_ofNat_of_lt' hfit]

theorem pathReversals_mono (h : path <:+: longer) (hl : longer.length < UInt32.size) :
    pathReversals path ≤ pathReversals longer := by
  rw [pathReversals_eq (h.length_le.trans_lt hl), pathReversals_eq hl]
  have hchanges : changes (headings path) ≤ changes (headings longer) :=
    changes_mono ((neighbours_isInfix h).filterMap _)
  omega

namespace Binary64

variable {x y : Binary64} {u v : Rat}

def nearestPlace (d : Rat) : Int := if d < 0 then -(nearestRank d.abs : Int) else nearestRank d.abs

theorem nearestPlace_zero : nearestPlace 0 = 0 := by decide +kernel

theorem nearestPlace_neg (d : Rat) : nearestPlace (-d) = -nearestPlace d := by
  rcases lt_trichotomy d 0 with h | rfl | h
  · have hneg : ¬ -d < 0 := not_lt.mpr (neg_nonneg.mpr h.le)
    simp [nearestPlace, h, hneg, Rat.abs_neg]
  · rw [neg_zero, nearestPlace_zero, neg_zero]
  · have hneg : -d < 0 := neg_lt_zero.mpr h
    simp [nearestPlace, not_lt.mpr h.le, hneg, Rat.abs_neg]

theorem place?_ofRat (d : Rat) : (ofRat d).place? = some (nearestPlace d) := by
  simp [ofRat, ofMagnitude, place?, nearestPlace]

/-- The difference of finite doubles stands at the place nearest to their difference as numbers. -/
theorem place?_sub (hx : x.toRat? = some u) (hy : y.toRat? = some v) :
    (x.sub y).place? = some (nearestPlace (u - v)) := by
  cases x with
  | nan => cases hx
  | ranked nx rx =>
    cases y with
    | nan => cases hy
    | ranked ny ry =>
      simp only [sub, hx, hy]
      split
      case isTrue heq => rw [heq, sub_self, nearestPlace_zero]; simp [zero, place?]
      case isFalse => exact place?_ofRat _

theorem place?_abs (x : Binary64) : x.abs.place? = x.place?.map fun i => |i| := by
  cases x with
  | nan => rfl
  | ranked negative rank => cases negative <;> simp [Binary64.abs, place?]

/-- So their distance stands at the place of that difference, its sign apart. -/
theorem place?_abs_sub (hx : x.toRat? = some u) (hy : y.toRat? = some v) :
    (x.sub y).abs.place? = some |nearestPlace (u - v)| := by
  rw [place?_abs, place?_sub hx hy, Option.map_some]

theorem toRat?_neg (h : x.toRat? = some u) : x.neg.toRat? = some (-u) := by
  cases x with
  | nan => cases h
  | ranked negative rank =>
    simp only [neg, toRat?] at h ⊢
    split at h
    case isTrue => cases h
    case isFalse hfinite =>
      rw [if_neg hfinite, ← Option.some.inj h]
      cases negative <;> simp

end Binary64

namespace Point

open Binary64 (nearestPlace)

variable {a b : Point} {u v : Rat}

/-- Beyond a threshold the direction of a displacement the other way is the other one. -/
theorem turned_eq {d limit : Int} (h : 0 < limit) :
    (if |d| < limit then none else some (decide (0 < -d))) =
      (if |d| < limit then none else some (decide (0 < d))).map not := by
  split
  case isTrue => rfl
  case isFalse hlarge =>
    have hopposite : 0 < -d ↔ ¬ 0 < d := by
      have hcases := abs_cases d
      omega
    rw [Option.map_some, ← decide_not, decide_eq_decide.mpr hopposite]

/-- A segment has a direction where its displacement reaches the threshold, and it is the sign of
the displacement. -/
theorem rightward?_eq (ha : a.x.toRat? = some u) (hb : b.x.toRat? = some v) :
    a.rightward? b = if |nearestPlace (v - u)| < nearestPlace (1 / 100) then none
      else some (decide (0 < nearestPlace (v - u))) := by
  have hdx := Binary64.place?_sub hb ha
  have habs := Binary64.place?_abs_sub hb ha
  have hzero : (Binary64.zero false).place? = some 0 := rfl
  simp only [rightward?, threshold, Binary64.lt_eq habs (Binary64.place?_ofRat _),
    Binary64.lt_eq hzero hdx, decide_eq_true_eq]

theorem threshold_pos : 0 < nearestPlace (1 / 100) := by decide +kernel

/-- The other way round a segment goes the other way. -/
theorem rightward?_swap (ha : a.x.isFinite) (hb : b.x.isFinite) :
    b.rightward? a = (a.rightward? b).map not := by
  obtain ⟨u, hu⟩ := Option.isSome_iff_exists.mp ha
  obtain ⟨v, hv⟩ := Option.isSome_iff_exists.mp hb
  rw [rightward?_eq hu hv, rightward?_eq hv hu, ← neg_sub v u, Binary64.nearestPlace_neg, abs_neg]
  exact turned_eq threshold_pos

def mirrored (p : Point) : Point := { p with x := p.x.neg }

/-- In the mirror a segment goes the other way. -/
theorem rightward?_mirrored (ha : a.x.isFinite) (hb : b.x.isFinite) :
    a.mirrored.rightward? b.mirrored = (a.rightward? b).map not := by
  obtain ⟨u, hu⟩ := Option.isSome_iff_exists.mp ha
  obtain ⟨v, hv⟩ := Option.isSome_iff_exists.mp hb
  have hback : -v - -u = -(v - u) := by ring
  rw [rightward?_eq hu hv, rightward?_eq (Binary64.toRat?_neg hu) (Binary64.toRat?_neg hv), hback,
    Binary64.nearestPlace_neg, abs_neg]
  exact turned_eq threshold_pos

/-- The side to which a segment goes, 1 for right and -1 for left: the sign of its displacement,
where that reaches the threshold. -/
def side? (a b : Point) : Option Int :=
  let dx := b.x.sub a.x
  if dx.abs.lt threshold then none else dx.place?.map Int.sign

end Point

def side (right : Bool) : Int := if right then 1 else -1

theorem side_injective : ∀ right right', side right = side right' → right = right' := by decide

theorem Point.side?_eq {a b : Point} (ha : a.x.isFinite) (hb : b.x.isFinite) :
    a.side? b = (a.rightward? b).map side := by
  obtain ⟨u, hu⟩ := Option.isSome_iff_exists.mp ha
  obtain ⟨v, hv⟩ := Option.isSome_iff_exists.mp hb
  have hdx := Binary64.place?_sub hv hu
  have habs := Binary64.place?_abs_sub hv hu
  have hpos := threshold_pos
  rw [rightward?_eq hu hv]
  simp only [side?, threshold, Binary64.lt_eq habs (Binary64.place?_ofRat _), hdx,
    decide_eq_true_eq, Option.map_some]
  split
  case isTrue => rfl
  case isFalse hlarge =>
    rcases abs_cases (Binary64.nearestPlace (v - u)) with ⟨hsame, -⟩ | ⟨-, hneg⟩
    · have hright : 0 < Binary64.nearestPlace (v - u) := by omega
      simp [side, hright, Int.sign_eq_one_of_pos]
    · simp [side, hneg, hneg.le, Int.sign_eq_neg_one_of_neg]

/-- The sides to which a path goes, segment by segment, those apart that hardly go aside. -/
def sides (path : List Point) : List Int := (neighbours path).filterMap fun s => s.1.side? s.2

section Finite

variable (hfinite : ∀ p ∈ path, p.x.isFinite)
include hfinite

theorem filterMap_neighbours_congr {γ : Type} {f g : Point → Point → Option γ}
    (h : ∀ a b : Point, a.x.isFinite → b.x.isFinite → f a b = g a b) :
    ((neighbours path).filterMap fun s => f s.1 s.2) =
      (neighbours path).filterMap fun s => g s.1 s.2 := by
  refine List.filterMap_congr fun s hs => ?_
  have hpair := mem_of_mem_neighbours hs
  exact h _ _ (hfinite _ hpair.1) (hfinite _ hpair.2)

theorem sides_eq : sides path = (headings path).map side := by
  rw [headings, List.map_filterMap, sides]
  exact filterMap_neighbours_congr hfinite fun a b => Point.side?_eq

theorem headings_reverse : headings path.reverse = ((headings path).map not).reverse := by
  rw [headings, neighbours_reverse, List.filterMap_reverse, List.filterMap_map, headings,
    List.map_filterMap]
  exact congrArg List.reverse
    (filterMap_neighbours_congr hfinite fun a b => Point.rightward?_swap)

theorem headings_mirrored : headings (path.map Point.mirrored) = (headings path).map not := by
  rw [headings, neighbours_map, List.filterMap_map, headings, List.map_filterMap]
  exact filterMap_neighbours_congr hfinite fun a b => Point.rightward?_mirrored

end Finite

/-- While its points are finite and can be counted in 32 bits, a path has as many reversals as
neighbours differ in the list of the sides to which it goes, but never more than two. A longer path
that contains it has no fewer, and it has as many backwards and in the mirror. -/
theorem pathReversals_winding (hlength : path.length < 2 ^ 32)
    (hfinite : ∀ p ∈ path, p.x.isFinite) :
    pathReversals path = min 2 (changes (sides path)) ∧
    (∀ longer, path <:+: longer → longer.length < 2 ^ 32 →
      pathReversals path ≤ pathReversals longer) ∧
    pathReversals path.reverse = pathReversals path ∧
    pathReversals (path.map Point.mirrored) = pathReversals path := by
  have hcount := pathReversals_eq hlength
  refine ⟨?_, fun longer => pathReversals_mono, ?_, ?_⟩
  · rw [hcount, sides_eq hfinite, changes_map side_injective, maxReversals]
  · rw [pathReversals_eq (by simpa using hlength), headings_reverse hfinite, changes_reverse,
      changes_map (by decide), hcount]
  · rw [pathReversals_eq (by simpa using hlength), headings_mirrored hfinite,
      changes_map (by decide), hcount]

/-- To the right, hardly at all, to the left and to the right again. -/
def zigzag : List Point :=
  [0, 1, 201 / 200, 1 / 2, 9 / 10].map fun x => ⟨.ofRat x, .zero false⟩

theorem pathReversals_winding_zigzag :
    sides zigzag = [1, -1, 1] ∧ pathReversals zigzag = 2 ∧
    pathReversals (zigzag.take 3) ≤ pathReversals zigzag ∧
    pathReversals zigzag.reverse = 2 ∧ pathReversals (zigzag.map Point.mirrored) = 2 := by
  have hfinite : ∀ p ∈ zigzag, p.x.isFinite := by decide +kernel
  have hstart : ∀ p ∈ zigzag.take 3, p.x.isFinite :=
    fun p hp => hfinite p (List.mem_of_mem_take hp)
  have hsides : sides zigzag = [1, -1, 1] := by decide +kernel
  have hlength : zigzag.length < 2 ^ 32 := by decide
  obtain ⟨hcount, -, hback, hmirror⟩ := pathReversals_winding hlength hfinite
  have htwo : pathReversals zigzag = 2 := by rw [hcount, hsides]; rfl
  have hpiece : zigzag.take 3 <:+: zigzag := ⟨[], zigzag.drop 3, rfl⟩
  have hlonger := (pathReversals_winding (by decide) hstart).2.1 zigzag hpiece hlength
  exact ⟨hsides, htwo, hlonger, hback.trans htwo, hmirror.trans htwo⟩

end KineticAlphabet
