import KineticAlphabet.Proofs.Writing
/-!
Values written over several lines. New lines and indents stand between tokens only, so the text has
the tokens of the text without any blanks and is read as the same document.
-/
namespace KineticAlphabet.Json

open Numeral (Ends)

/-- Nothing but what may stand between tokens. -/
def Gaps (cs : List Char) : Prop := ∀ c ∈ cs, Token.isGap c = true

theorem toList_newLine (depth : Nat) :
    (newLine depth).toList = '\n' :: List.replicate (2 * depth) ' ' := by
  rw [newLine, String.toList_ofList]

theorem gaps_newLine (depth : Nat) : Gaps (newLine depth).toList := by
  intro c h
  rw [toList_newLine, List.mem_cons] at h
  rcases h with rfl | h
  · rfl
  · rw [List.eq_of_mem_replicate h]
    rfl

theorem take_append_of_gaps {gaps : List Char} (h : Gaps gaps) (n : Nat) (cs : List Char) :
    Token.take n (gaps ++ cs) = Token.take n cs := by
  cases n with
  | zero => rfl
  | succ n => rw [Token.take, Token.take, List.dropWhile_append_of_pos h]

/-- Gaps yield nothing. -/
theorem Yields.behind {gaps cs : List Char} {ts : List Token} (h : Yields cs ts) (hg : Gaps gaps) :
    Yields (gaps ++ cs) ts := by
  refine ⟨Nat.le_trans h.length_le (by simp), fun n rest hr => ?_⟩
  rw [List.append_assoc, take_append_of_gaps hg, h.take n rest hr]

theorem ends_newLine (depth : Nat) (cs : List Char) : Ends ((newLine depth).toList ++ cs) := by
  rw [toList_newLine]
  exact ends_cons (by decide) _

/-- Two texts yield the same tokens. -/
def Alike (cs cs' : List Char) : Prop := ∃ ts, Yields cs ts ∧ Yields cs' ts

namespace Alike

variable {cs cs' ds ds' : List Char} {t : Token}

theorem cons (ht : IsToken ds t) (h : Alike cs cs') : Alike (ds ++ cs) (ds ++ cs') := by
  obtain ⟨ts, hy, hy'⟩ := h
  exact ⟨t :: ts, ht.cons hy, ht.cons hy'⟩

theorem append (h : Alike cs cs') (hd : Alike ds ds')
    (hends : ∀ rest, Ends rest → Ends (ds ++ rest))
    (hends' : ∀ rest, Ends rest → Ends (ds' ++ rest)) :
    Alike (cs ++ ds) (cs' ++ ds') := by
  obtain ⟨ts, hy, hy'⟩ := h
  obtain ⟨us, hz, hz'⟩ := hd
  exact ⟨ts ++ us, hy.append hz hends, hy'.append hz' hends'⟩

theorem behind {gaps : List Char} (h : Alike cs cs') (hg : Gaps gaps) :
    Alike cs (gaps ++ cs') := by
  obtain ⟨ts, hy, hy'⟩ := h
  exact ⟨ts, hy, hy'.behind hg⟩

end Alike

variable {vs : List Json} {fs : List (String × Json)}

theorem ends_indentedItems (vs : List Json) (depth outer : Nat) (cs : List Char) :
    Ends ((indentedItems depth vs).toList ++ ((newLine outer).toList ++ cs)) := by
  cases vs with
  | nil => exact ends_newLine outer cs
  | cons v vs =>
    simp only [indentedItems, String.toList_append, List.append_assoc]
    exact ends_cons (c := ',') (by decide) _

theorem ends_indentedFields (fs : List (String × Json)) (depth outer : Nat) (cs : List Char) :
    Ends ((indentedFields depth fs).toList ++ ((newLine outer).toList ++ cs)) := by
  cases fs with
  | nil => exact ends_newLine outer cs
  | cons f fs =>
    simp only [indentedFields, String.toList_append, List.append_assoc]
    exact ends_cons (c := ',') (by decide) _

/-- An item with the further items of an array and its end. -/
theorem alike_items {v : Json} (depth outer : Nat)
    (h : ∀ u ∈ v :: vs, Alike u.compact.toList (u.indented depth).toList) :
    Alike (v.compact.toList ++ ((compactItems vs).toList ++ [']']))
      ((v.indented depth).toList ++
        ((indentedItems depth vs).toList ++ ((newLine outer).toList ++ [']']))) := by
  induction vs generalizing v with
  | nil =>
    refine (h v List.mem_cons_self).append ?_ (fun rest _ => ends_items [] rest) fun rest _ => ?_
    · have hend : Alike [']'] [']'] := ⟨_, isToken_closeArr.yields, isToken_closeArr.yields⟩
      exact hend.behind (gaps_newLine outer)
    · rw [List.append_assoc, List.append_assoc]
      exact ends_indentedItems [] depth outer _
  | cons u vs ih =>
    obtain ⟨hv, hvs⟩ := List.forall_mem_cons.mp h
    refine hv.append ?_ (fun rest _ => ?_) fun rest _ => ?_
    · have hmore := ((ih hvs).behind (gaps_newLine depth)).cons isToken_comma
      simpa [compactItems, indentedItems] using hmore
    · rw [List.append_assoc]
      exact ends_items _ rest
    · rw [List.append_assoc, List.append_assoc]
      exact ends_indentedItems _ depth outer _

/-- A field with the further fields of an object and its end. -/
theorem alike_fields {k : String} {v : Json} (depth outer : Nat)
    (h : ∀ f ∈ (k, v) :: fs, Alike f.2.compact.toList (f.2.indented depth).toList) :
    Alike ((quote k).toList ++ ([':'] ++ (v.compact.toList ++
        ((compactFields fs).toList ++ ['}']))))
      ((quote k).toList ++ ([':'] ++ ([' '] ++ ((v.indented depth).toList ++
        ((indentedFields depth fs).toList ++ ((newLine outer).toList ++ ['}'])))))) := by
  have hgap : Gaps [' '] := by
    intro c hc
    rw [List.mem_singleton.mp hc]
    rfl
  refine .cons (isToken_quote k) (.cons isToken_colon (.behind ?_ hgap))
  induction fs generalizing k v with
  | nil =>
    refine (h _ List.mem_cons_self).append ?_ (fun rest _ => ends_fields [] rest) fun rest _ => ?_
    · have hend : Alike ['}'] ['}'] := ⟨_, isToken_closeObj.yields, isToken_closeObj.yields⟩
      exact hend.behind (gaps_newLine outer)
    · rw [List.append_assoc, List.append_assoc]
      exact ends_indentedFields [] depth outer _
  | cons f fs ih =>
    obtain ⟨hv, hfs⟩ := List.forall_mem_cons.mp h
    refine hv.append ?_ (fun rest _ => ?_) fun rest _ => ?_
    · have hfield := Alike.cons (isToken_quote f.1) (.cons isToken_colon ((ih hfs).behind hgap))
      have hmore := (hfield.behind (gaps_newLine depth)).cons isToken_comma
      simpa [compactFields, indentedFields] using hmore
    · rw [List.append_assoc]
      exact ends_fields _ rest
    · rw [List.append_assoc, List.append_assoc]
      exact ends_indentedFields _ depth outer _

/-- Written over several lines a value has the tokens that it has without blanks. -/
theorem alike_indented (v : Json) (depth : Nat) :
    Alike v.compact.toList (v.indented depth).toList := by
  have hleaf (v : Json) : Alike v.compact.toList v.compact.toList := by
    obtain ⟨ts, hy, -⟩ := reads_compact v
    exact ⟨ts, hy, hy⟩
  induction v using induct generalizing depth with
  | null | bool | int | float | str =>
    simp only [indented]
    exact hleaf _
  | arr vs ih =>
    cases vs with
    | nil => exact hleaf (.arr [])
    | cons v vs =>
      have hitems := alike_items (depth + 1) depth fun u hu => ih u hu (depth + 1)
      have harr := (hitems.behind (gaps_newLine (depth + 1))).cons isToken_openArr
      simpa [compact, indented] using harr
  | obj fs ih =>
    cases fs with
    | nil => exact hleaf (.obj [])
    | cons f fs =>
      have hfields := alike_fields (depth + 1) depth fun f hf => ih f hf (depth + 1)
      have hobj := (hfields.behind (gaps_newLine (depth + 1))).cons isToken_openObj
      simpa [compact, indented] using hobj

/-- The text over several lines is read as the text without blanks. -/
theorem ofText_pretty (v : Json) : Doc.ofText v.pretty = (v.reread, false) := by
  obtain ⟨ts, hy, hy'⟩ := alike_indented v 0
  rw [← ofText_compact, Doc.ofText, Doc.ofText, hy.ofText, pretty, hy'.ofText]

end KineticAlphabet.Json
