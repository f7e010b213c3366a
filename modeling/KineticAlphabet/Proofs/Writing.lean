import KineticAlphabet.Json.Read
import KineticAlphabet.Proofs.Numerals
/-!
What a written value is read as. The text of a value breaks up into the same tokens wherever it
stands, because nothing in it depends on what follows but the end of a number, and those tokens
build the same document in every place where a value may stand. So arrays, objects and texts are
read as they were written, and a number as what its text alone is read as.
-/
namespace KineticAlphabet.Json

/-- Each kind of value, with the values inside it. -/
theorem induct {P : Json → Prop} (null : P .null) (bool : ∀ b, P (.bool b)) (int : ∀ n, P (.int n))
    (float : ∀ x, P (.float x)) (str : ∀ s, P (.str s))
    (arr : ∀ vs, (∀ v ∈ vs, P v) → P (.arr vs))
    (obj : ∀ fs : List (String × Json), (∀ f ∈ fs, P f.2) → P (.obj fs)) (v : Json) : P v :=
  @Json.rec P (fun vs => ∀ v ∈ vs, P v) (fun fs => ∀ f ∈ fs, P f.2) (fun f => P f.2)
    null bool int float str arr obj nofun (fun _ _ hv hvs => List.forall_mem_cons.mpr ⟨hv, hvs⟩)
    nofun (fun _ _ hf hfs => List.forall_mem_cons.mpr ⟨hf, hfs⟩) (fun _ _ h => h) v

open Numeral (Ends)

/-- A text breaks up into tokens wherever it stands. -/
structure Yields (cs : List Char) (ts : List Token) : Prop where
  length_le : ts.length ≤ cs.length
  take : ∀ n rest, Ends rest → Token.take (ts.length + n) (cs ++ rest) = ts ++ Token.take n rest

/-- A text is one token, whatever stands behind it. -/
structure IsToken (cs : List Char) (t : Token) : Prop where
  length_pos : 0 < cs.length
  take : ∀ n rest, Token.take (n + 1) (cs ++ rest) = t :: Token.take n rest

section

variable {cs cs' : List Char} {ts ts' : List Token} {t : Token}

theorem yields_nil : Yields [] [] := ⟨Nat.le_refl 0, fun n rest _ => by simp⟩

theorem Yields.append (h : Yields cs ts) (h' : Yields cs' ts')
    (hends : ∀ rest, Ends rest → Ends (cs' ++ rest)) : Yields (cs ++ cs') (ts ++ ts') := by
  refine ⟨?_, fun n rest hr => ?_⟩
  · simp only [List.length_append]
    exact Nat.add_le_add h.length_le h'.length_le
  · rw [List.length_append, List.append_assoc, Nat.add_assoc, h.take _ _ (hends rest hr),
      h'.take n rest hr, List.append_assoc]

theorem IsToken.cons (h : IsToken cs t) (h' : Yields cs' ts) : Yields (cs ++ cs') (t :: ts) := by
  refine ⟨?_, fun n rest hr => ?_⟩
  · have := h.length_pos
    have := h'.length_le
    simp only [List.length_cons, List.length_append]
    omega
  · have hn : (t :: ts).length + n = ts.length + n + 1 := by
      rw [List.length_cons]
      omega
    rw [hn, List.append_assoc, h.take, h'.take n rest hr, List.cons_append]

theorem IsToken.yields (h : IsToken cs t) : Yields cs [t] := by
  have := h.cons yields_nil
  rwa [List.append_nil] at this

/-- The tokens of a text by itself are those it yields. -/
theorem Yields.ofText (h : Yields cs ts) : Token.ofText cs = ts := by
  have hend : ∀ n, Token.take n [] = [] := fun n => by cases n <;> rfl
  obtain ⟨n, hn⟩ := Nat.exists_eq_add_of_le h.length_le
  have htake := h.take n [] nofun
  rw [List.append_nil, hend, List.append_nil] at htake
  rw [Token.ofText, hn, htake]

theorem take_succ_cons {c : Char} (hc : Token.isGap c = false) (n : Nat) (cs : List Char) :
    Token.take (n + 1) (c :: cs) = (Token.span c cs).1 :: Token.take n (Token.span c cs).2 := by
  rw [Token.take, List.dropWhile_cons_of_neg (by simp [hc])]

/-- A token behind whose last character the rest begins. -/
theorem isToken_of_span {c : Char} (hc : Token.isGap c = false)
    (h : ∀ rest, Token.span c (cs ++ rest) = (t, rest)) : IsToken (c :: cs) t := by
  refine ⟨Nat.succ_pos _, fun n rest => ?_⟩
  rw [List.cons_append, take_succ_cons hc, h]

end

theorem isToken_openArr : IsToken ['['] .openArr := isToken_of_span rfl fun _ => rfl
theorem isToken_closeArr : IsToken [']'] .closeArr := isToken_of_span rfl fun _ => rfl
theorem isToken_openObj : IsToken ['{'] .openObj := isToken_of_span rfl fun _ => rfl
theorem isToken_closeObj : IsToken ['}'] .closeObj := isToken_of_span rfl fun _ => rfl
theorem isToken_comma : IsToken [','] .comma := isToken_of_span rfl fun _ => rfl
theorem isToken_colon : IsToken [':'] .colon := isToken_of_span rfl fun _ => rfl
theorem isToken_null : IsToken "null".toList .null := isToken_of_span rfl fun _ => rfl
theorem isToken_bool (b : Bool) :
    IsToken (if b then "true" else "false").toList (.bool b) := by
  cases b <;> exact isToken_of_span rfl fun _ => rfl

/-- How a character stands in quotes: control characters without an escape of their own stand as
their code units. -/
def unitOf (c : Char) : TextUnit :=
  if c.toNat < 32 ∧ ¬ c ∈ ['\n', '\r', '\t', Char.ofNat 8, Char.ofNat 12] then .code c.toNat
  else .char c

theorem hex?_control : ∀ n < 32,
    Token.hex? ['0', '0', Nat.digitChar (n / 16), Nat.digitChar (n % 16)] = some n := by
  decide

/-- An escaped character is read as the unit that it stands as. -/
theorem spanText?_escapeChar (c : Char) (cs : List Char) :
    Token.spanText? (escapeChar c ++ cs) =
      (Token.spanText? cs).map fun p => (unitOf c :: p.1, p.2) := by
  have hpass : ∀ u, ((Token.spanText? cs).bind fun p => some (u :: p.1, p.2)) =
      (Token.spanText? cs).map fun p => (u :: p.1, p.2) := by
    intro u
    cases Token.spanText? cs <;> rfl
  have hescape : ∀ e, e ≠ 'u' → Token.escaped? e = some c → unitOf c = .char c →
      Token.spanText? ('\\' :: e :: cs) =
        (Token.spanText? cs).map fun p => (unitOf c :: p.1, p.2) := by
    intro e hu he hc
    rw [hc, ← hpass]
    simp [Token.spanText?, hu, he]
  unfold escapeChar
  split
  case isTrue h => subst h; exact hescape '"' (by decide) rfl rfl
  case isFalse hquote =>
  split
  case isTrue h => subst h; exact hescape '\\' (by decide) rfl rfl
  case isFalse hslash =>
  split
  case isTrue h => subst h; exact hescape 'n' (by decide) rfl rfl
  case isFalse hn =>
  split
  case isTrue h => subst h; exact hescape 'r' (by decide) rfl rfl
  case isFalse hr =>
  split
  case isTrue h => subst h; exact hescape 't' (by decide) rfl rfl
  case isFalse ht =>
  split
  case isTrue h =>
    obtain rfl : c = Char.ofNat 8 := by rw [← h, Char.ofNat_toNat]
    exact hescape 'b' (by decide) rfl rfl
  case isFalse hb =>
  split
  case isTrue h =>
    obtain rfl : c = Char.ofNat 12 := by rw [← h, Char.ofNat_toNat]
    exact hescape 'f' (by decide) rfl rfl
  case isFalse hf =>
  split
  case isTrue hcontrol =>
    have hunit : unitOf c = .code c.toNat := by
      refine if_pos ⟨hcontrol, ?_⟩
      simp only [List.mem_cons, hn, hr, ht, List.not_mem_nil, or_false, false_or]
      rintro (rfl | rfl)
      · exact hb rfl
      · exact hf rfl
    rw [hunit, ← hpass]
    simp [Token.spanText?, hex?_control c.toNat hcontrol]
  case isFalse hplain =>
    have hunit : unitOf c = .char c := if_neg fun h => hplain h.1
    rw [hunit, ← hpass]
    simp [Token.spanText?, hslash, hplain]

/-- A code unit of no pair is a character by itself. -/
theorem chars?_code {m : Nat} (h : m < 0xD800) (us : List TextUnit) :
    TextUnit.chars? (.code m :: us) = (TextUnit.chars? us).map (Char.ofNat m :: ·) := by
  have hleading : TextUnit.isLeading m = false := by simp [TextUnit.isLeading, Nat.not_le.mpr h]
  have htrailing : TextUnit.isTrailing m = false := by
    have hlt : m < 0xDC00 := by omega
    simp [TextUnit.isTrailing, Nat.not_le.mpr hlt]
  rcases us with _ | ⟨_ | _, us⟩ <;> simp [TextUnit.chars?, hleading, htrailing]

/-- The units stand for the characters. -/
theorem chars?_unitOf (cs : List Char) : TextUnit.chars? (cs.map unitOf) = some cs := by
  induction cs with
  | nil => rfl
  | cons c cs ih =>
    rw [List.map_cons, unitOf]
    split
    case isTrue h => rw [chars?_code (by omega), ih, Option.map_some, Char.ofNat_toNat]
    case isFalse => rw [TextUnit.chars?, ih, Option.map_some]

theorem spanText?_escaped (cs rest : List Char) :
    Token.spanText? (cs.flatMap escapeChar ++ '"' :: rest) = some (cs.map unitOf, rest) := by
  induction cs with
  | nil => rfl
  | cons c cs ih =>
    rw [List.flatMap_cons, List.append_assoc, spanText?_escapeChar, ih]
    rfl

/-- A text in quotes is one token, which is the text. -/
theorem isToken_quote (s : String) : IsToken (quote s).toList (.text (some s)) := by
  have hquote : (quote s).toList = '"' :: (s.toList.flatMap escapeChar ++ ['"']) := by
    simp [quote]
  rw [hquote]
  refine isToken_of_span rfl fun rest => ?_
  rw [List.append_assoc, List.singleton_append]
  simp only [Token.span, spanText?_escaped, chars?_unitOf, Option.map_some, String.ofList_toList]

theorem span_number {c : Char} {cs rest : List Char} {n : Numeral}
    (hc : c.isDigit = true ∨ c = '-') (h : Numeral.span? (c :: cs) = some (n, rest)) :
    Token.span c cs = (.number n.value, rest) := by
  unfold Token.span
  split
  all_goals first | exact absurd hc (by decide) | rw [h]

/-- The text of a number is one token where it ends. -/
theorem yields_number {n : Numeral} (h : n.WellFormed) : Yields n.text [.number n.value] := by
  obtain ⟨c, cs, htext, hc⟩ := Numeral.exists_text_eq_cons h
  have hgap : Token.isGap c = false := by
    rw [Bool.eq_false_iff]
    intro hgap
    simp only [Token.isGap, Bool.or_eq_true, decide_eq_true_eq] at hgap
    rcases hgap with ((rfl | rfl) | rfl) | rfl <;> exact absurd hc (by decide)
  refine ⟨by rw [htext]; exact Nat.succ_le_succ (Nat.zero_le _), fun k rest hr => ?_⟩
  have hspan := Numeral.span?_text h hr
  rw [htext, List.cons_append] at hspan ⊢
  rw [List.length_singleton, Nat.add_comm, take_succ_cons hgap, span_number hc hspan]
  rfl

def proceed : Doc.Progress → List Token → Doc × List Token
  | .finished d, ts => (d, ts)
  | .ongoing need stack, ts => Doc.build need stack ts

theorem build_cons {need : Doc.Need} {stack : List Doc.Frame} {t : Token} {p : Doc.Progress}
    (h : Doc.step? need stack t = some p) (ts : List Token) :
    Doc.build need stack (t :: ts) = proceed p ts := by
  rw [Doc.build, h]
  cases p <;> rfl

/-- Tokens build a document in every place where a value may stand. -/
def Builds (ts : List Token) (d : Doc) : Prop :=
  ∀ need stack more, need = .value ∨ need = .itemOrEnd →
    Doc.build need stack (ts ++ more) = proceed (Doc.settle d stack) more

theorem builds_token {t : Token} {d : Doc} (h : Doc.ofToken? t = some d) : Builds [t] d := by
  intro need stack more hneed
  refine build_cons ?_ more
  have hstep : Doc.step? need stack t = (Doc.ofToken? t).map (Doc.settle · stack) := by
    rcases hneed with rfl | rfl <;> cases t <;> first | rfl | cases h
  rw [hstep, h, Option.map_some]

/-- A text is read as a document wherever a value may stand. -/
def Reads (cs : List Char) (d : Doc) : Prop := ∃ ts, Yields cs ts ∧ Builds ts d

theorem Reads.ofText {s : String} {d : Doc} (h : Reads s.toList d) : Doc.ofText s = (d, false) := by
  obtain ⟨ts, hy, hb⟩ := h
  have hbuild := hb .value [] [] (.inl rfl)
  rw [List.append_nil] at hbuild
  rw [Doc.ofText, hy.ofText, hbuild]
  rfl

theorem IsToken.reads {cs : List Char} {t : Token} {d : Doc} (h : IsToken cs t)
    (hd : Doc.ofToken? t = some d) : Reads cs d := ⟨[t], h.yields, builds_token hd⟩

/-- A number is read as something wherever it stands. -/
theorem exists_reads_number {n : Numeral} (h : n.WellFormed) : ∃ d, Reads n.text d := by
  obtain ⟨d, hd⟩ : ∃ d, Doc.ofToken? (.number n.value) = some d := by
    cases n.value <;> exact ⟨_, rfl⟩
  exact ⟨d, [.number n.value], yields_number h, builds_token hd⟩

/-- The document that the text of a value by itself is read as. -/
def reread (v : Json) : Doc := (Doc.ofText v.compact).1

theorem reads_of_exists {v : Json} (h : ∃ d, Reads v.compact.toList d) :
    Reads v.compact.toList v.reread := by
  obtain ⟨d, hd⟩ := h
  rwa [reread, hd.ofText]

/-- Behind an item or a field a comma, a bracket or a new line ends a number. -/
theorem ends_cons {c : Char} (h : c ∈ [',', ']', '}', '\n']) (cs : List Char) : Ends (c :: cs) := by
  rintro _ ⟨⟩
  simp only [List.mem_cons, List.not_mem_nil, or_false] at h
  rcases h with rfl | rfl | rfl | rfl <;> decide

section

variable {vs : List Json} {fs : List (String × Json)}

theorem ends_items (vs : List Json) (cs : List Char) :
    Ends ((compactItems vs).toList ++ ']' :: cs) := by
  cases vs with
  | nil => exact ends_cons (by decide) cs
  | cons v vs =>
    simp only [compactItems, String.toList_append, List.append_assoc]
    exact ends_cons (c := ',') (by decide) _

/-- The further items of an array and its end. -/
theorem reads_items (h : ∀ v ∈ vs, Reads v.compact.toList v.reread) :
    ∃ ts, Yields ((compactItems vs).toList ++ [']']) ts ∧ ∀ done stack more,
      Doc.build .commaOrEnd (.arr done :: stack) (ts ++ more) =
        proceed (Doc.settle (.arr (done.reverse ++ vs.map reread)) stack) more := by
  induction vs with
  | nil =>
    refine ⟨[.closeArr], isToken_closeArr.yields, fun done stack more => ?_⟩
    rw [List.map_nil, List.append_nil]
    exact build_cons rfl more
  | cons v vs ih =>
    rw [List.forall_mem_cons] at h
    obtain ⟨tsv, hy, hb⟩ := h.1
    obtain ⟨ts, hys, hbs⟩ := ih h.2
    refine ⟨.comma :: (tsv ++ ts), ?_, fun done stack more => ?_⟩
    · have := isToken_comma.cons (hy.append hys fun rest _ => by
        rw [List.append_assoc]
        exact ends_items vs rest)
      simpa [compactItems] using this
    · rw [List.cons_append, build_cons (p := .ongoing .value (.arr done :: stack)) rfl, proceed,
        List.append_assoc, hb _ _ _ (.inl rfl)]
      simp [Doc.settle, proceed, Doc.Frame.add, hbs]

theorem ends_fields (fs : List (String × Json)) (cs : List Char) :
    Ends ((compactFields fs).toList ++ '}' :: cs) := by
  cases fs with
  | nil => exact ends_cons (by decide) cs
  | cons f fs =>
    simp only [compactFields, String.toList_append, List.append_assoc]
    exact ends_cons (c := ',') (by decide) _

def rereadFields (fs : List (String × Json)) : List (Option String × Doc) :=
  fs.map fun f => (some f.1, f.2.reread)

/-- The further fields of an object and its end. -/
theorem reads_fields (h : ∀ f ∈ fs, Reads f.2.compact.toList f.2.reread) :
    ∃ ts, Yields ((compactFields fs).toList ++ ['}']) ts ∧ ∀ done key stack more,
      Doc.build .commaOrEnd (.obj done key :: stack) (ts ++ more) =
        proceed (Doc.settle (.obj (done.reverse ++ rereadFields fs)) stack) more := by
  induction fs with
  | nil =>
    refine ⟨[.closeObj], isToken_closeObj.yields, fun done key stack more => ?_⟩
    rw [rereadFields, List.map_nil, List.append_nil]
    exact build_cons rfl more
  | cons f fs ih =>
    obtain ⟨k, v⟩ := f
    rw [List.forall_mem_cons] at h
    obtain ⟨tsv, hy, hb⟩ := h.1
    obtain ⟨ts, hys, hbs⟩ := ih h.2
    refine ⟨.comma :: .text (some k) :: .colon :: (tsv ++ ts), ?_, fun done key stack more => ?_⟩
    · have hfields := hy.append hys fun rest _ => by
        rw [List.append_assoc]
        exact ends_fields fs rest
      have := isToken_comma.cons ((isToken_quote k).cons (isToken_colon.cons hfields))
      simpa [compactFields] using this
    · rw [List.cons_append, build_cons (p := .ongoing .key (.obj done key :: stack)) rfl,
        proceed, List.cons_append,
        build_cons (p := .ongoing .colon (.obj done (some k) :: stack)) rfl,
        proceed, List.cons_append,
        build_cons (p := .ongoing .value (.obj done (some k) :: stack)) rfl,
        proceed, List.append_assoc, hb _ _ _ (.inl rfl)]
      simp [Doc.settle, proceed, Doc.Frame.add, hbs, rereadFields]

theorem build_openArr {need : Doc.Need} (h : need = .value ∨ need = .itemOrEnd)
    (stack : List Doc.Frame) (ts : List Token) :
    Doc.build need stack (.openArr :: ts) = Doc.build .itemOrEnd (.arr [] :: stack) ts := by
  rcases h with rfl | rfl <;> rfl

theorem build_openObj {need : Doc.Need} (h : need = .value ∨ need = .itemOrEnd)
    (stack : List Doc.Frame) (ts : List Token) :
    Doc.build need stack (.openObj :: ts) = Doc.build .keyOrEnd (.obj [] none :: stack) ts := by
  rcases h with rfl | rfl <;> rfl

/-- An array is read as the array of its items. -/
theorem reads_arr (h : ∀ v ∈ vs, Reads v.compact.toList v.reread) :
    Reads (Json.arr vs).compact.toList (.arr (vs.map reread)) := by
  cases vs with
  | nil =>
    refine ⟨[.openArr, .closeArr], isToken_openArr.cons isToken_closeArr.yields, ?_⟩
    intro need stack more hneed
    exact (build_openArr hneed stack _).trans (build_cons rfl more)
  | cons v vs =>
    rw [List.forall_mem_cons] at h
    obtain ⟨tsv, hy, hb⟩ := h.1
    obtain ⟨ts, hys, hbs⟩ := reads_items h.2
    refine ⟨.openArr :: (tsv ++ ts), ?_, fun need stack more hneed => ?_⟩
    · have := isToken_openArr.cons (hy.append hys fun rest _ => by
        rw [List.append_assoc]
        exact ends_items vs rest)
      simpa [compact] using this
    · rw [List.cons_append, build_openArr hneed, List.append_assoc, hb _ _ _ (.inr rfl)]
      simp [Doc.settle, proceed, Doc.Frame.add, hbs]

/-- An object is read as the object of its fields. -/
theorem reads_obj (h : ∀ f ∈ fs, Reads f.2.compact.toList f.2.reread) :
    Reads (Json.obj fs).compact.toList (.obj (rereadFields fs)) := by
  cases fs with
  | nil =>
    refine ⟨[.openObj, .closeObj], isToken_openObj.cons isToken_closeObj.yields, ?_⟩
    intro need stack more hneed
    exact (build_openObj hneed stack _).trans (build_cons rfl more)
  | cons f fs =>
    obtain ⟨k, v⟩ := f
    rw [List.forall_mem_cons] at h
    obtain ⟨tsv, hy, hb⟩ := h.1
    obtain ⟨ts, hys, hbs⟩ := reads_fields h.2
    refine ⟨.openObj :: .text (some k) :: .colon :: (tsv ++ ts), ?_,
      fun need stack more hneed => ?_⟩
    · have hfields := hy.append hys fun rest _ => by
        rw [List.append_assoc]
        exact ends_fields fs rest
      have := isToken_openObj.cons ((isToken_quote k).cons (isToken_colon.cons hfields))
      simpa [compact] using this
    · rw [List.cons_append, build_openObj hneed, List.cons_append,
        build_cons (p := .ongoing .colon (.obj [] (some k) :: stack)) rfl,
        proceed, List.cons_append,
        build_cons (p := .ongoing .value (.obj [] (some k) :: stack)) rfl,
        proceed, List.append_assoc, hb _ _ _ (.inl rfl)]
      simp [Doc.settle, proceed, Doc.Frame.add, hbs, rereadFields]

end

/-- The text of a value is read in the same way wherever it stands. -/
theorem reads_compact (v : Json) : Reads v.compact.toList v.reread := by
  refine reads_of_exists ?_
  induction v using induct with
  | null => exact ⟨_, isToken_null.reads rfl⟩
  | bool b => exact ⟨_, (isToken_bool b).reads rfl⟩
  | int n =>
    rw [compact, Numeral.text_ofInt]
    exact exists_reads_number (Numeral.wellFormed_ofInt n)
  | float x =>
    rw [compact]
    rcases exists_floatText x with h | ⟨m, hm, htext⟩
    · rw [h]
      exact ⟨_, isToken_null.reads rfl⟩
    · rw [htext]
      exact exists_reads_number hm
  | str s => exact ⟨_, (isToken_quote s).reads rfl⟩
  | arr vs ih => exact ⟨_, reads_arr fun v hv => reads_of_exists (ih v hv)⟩
  | obj fs ih => exact ⟨_, reads_obj fun f hf => reads_of_exists (ih f hf)⟩

/-- Nothing stands behind the value of a written text. -/
theorem ofText_compact (v : Json) : Doc.ofText v.compact = (v.reread, false) :=
  (reads_compact v).ofText

section

variable (s : String) (b : Bool) (vs : List Json) (fs : List (String × Json))

theorem Reads.reread_eq {v : Json} {d : Doc} (h : Reads v.compact.toList d) : v.reread = d :=
  congrArg Prod.fst h.ofText

@[simp] theorem reread_null : Json.null.reread = .null :=
  Reads.reread_eq (isToken_null.reads rfl)

@[simp] theorem reread_bool : (Json.bool b).reread = .bool b :=
  Reads.reread_eq ((isToken_bool b).reads rfl)

@[simp] theorem reread_str : (Json.str s).reread = .str s :=
  Reads.reread_eq ((isToken_quote s).reads rfl)

@[simp] theorem reread_arr : (Json.arr vs).reread = .arr (vs.map reread) :=
  Reads.reread_eq (reads_arr fun v _ => reads_compact v)

@[simp] theorem reread_obj : (Json.obj fs).reread = .obj (rereadFields fs) :=
  Reads.reread_eq (reads_obj fun f _ => reads_compact f.2)

end

end KineticAlphabet.Json
