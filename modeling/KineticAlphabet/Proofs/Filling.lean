import KineticAlphabet.Record
import Mathlib.Data.List.Forall2
/-!
Records whose fields stand in the order of their slots. Such a record is read slot by slot: each
field is found under the first of the names of its slot, no slot is filled twice, and a slot without
a field leaves the value as it is. Of a record in any order it is told what one of its fields makes
sure of: what no other slot touches stays so to the end.
-/
namespace KineticAlphabet

variable {δ σ : Type}

namespace Slot

def name (slot : Slot δ σ) : String := slot.names.headD ""

/-- What a field does to the record under construction, if it is there. -/
def fill (slot : Slot δ σ) : Option δ → σ → Except ReadError σ
  | none => .ok
  | some d => slot.read d

/-- Every slot has names, and no name belongs to two of them. -/
structure WellNamed (slots : List (Slot δ σ)) : Prop where
  named : ∀ slot ∈ slots, slot.names ≠ []
  apart : (slots.map Slot.names).Pairwise fun names others => ∀ n ∈ names, n ∉ others

end Slot

def present {α : Type} : List String → List (Option α) → List (String × α)
  | name :: names, a :: as => (a.map (name, ·)).toList ++ present names as
  | _, _ => []

def fillAll : List (Slot δ σ) → List (Option δ) → σ → Except ReadError σ
  | slot :: slots, d :: ds, s => slot.fill d s >>= fillAll slots ds
  | _, _, s => .ok s

namespace Slot.WellNamed

variable {slots : List (Slot δ σ)} {slot : Slot δ σ}

theorem name_mem (h : WellNamed slots) (hs : slot ∈ slots) : slot.name ∈ slot.names := by
  obtain ⟨n, ns, hn⟩ := List.exists_cons_of_ne_nil (h.named slot hs)
  rw [name, hn]
  exact List.mem_cons_self

theorem tail (h : WellNamed (slot :: slots)) : WellNamed slots :=
  ⟨fun s hs => h.named s (List.mem_cons_of_mem slot hs), (List.pairwise_cons.mp h.apart).2⟩

/-- The first of some slots has no name of the others. -/
theorem notMem_names (h : WellNamed (slot :: slots)) {other : Slot δ σ} (ho : other ∈ slots)
    {n : String} (hn : n ∈ other.names) : n ∉ slot.names := fun hmem =>
  (List.pairwise_cons.mp h.apart).1 other.names (List.mem_map_of_mem ho) n hmem hn

/-- A slot is found under its name. -/
theorem find?_name (h : WellNamed slots) (hs : slot ∈ slots) :
    slots.find? (fun s => s.names.contains slot.name) = some slot := by
  induction slots with
  | nil => cases hs
  | cons first slots ih =>
    have hname := h.name_mem hs
    rcases List.mem_cons.mp hs with rfl | hs
    · exact List.find?_cons_of_pos (by simpa using hname)
    · rw [List.find?_cons_of_neg (by simpa using h.notMem_names hs hname)]
      exact ih h.tail hs

end Slot.WellNamed

/-- Fields in the order of some of the slots fill them, if none of them is filled already. -/
theorem readFields_present {all : List (Slot δ σ)} (hall : Slot.WellNamed all)
    (pass : δ → Except ReadError Unit) {slots : List (Slot δ σ)} (hslots : Slot.WellNamed slots)
    (hsub : ∀ slot ∈ slots, slot ∈ all) (ds : List (Option δ)) {filled : List (List String)}
    (hnew : ∀ slot ∈ slots, slot.names ∉ filled) :
    ∃ filled', (∀ names ∈ filled, names ∈ filled') ∧
      (∀ slot d, (slot, some d) ∈ slots.zip ds → slot.names ∈ filled') ∧
      ∀ s, readFields all pass
          ((present (slots.map Slot.name) ds).map fun f => (some f.1, f.2)) filled s =
        (fillAll slots ds s).map (Prod.mk filled') := by
  induction slots generalizing ds filled with
  | nil => exact ⟨filled, fun _ h => h, nofun, fun s => rfl⟩
  | cons slot slots ih =>
    rcases ds with _ | ⟨_ | d, ds⟩
    · exact ⟨filled, fun _ h => h, nofun, fun s => rfl⟩
    · rw [List.forall_mem_cons] at hsub hnew
      obtain ⟨filled', hkeep, hfill, hread⟩ := ih hslots.tail hsub.2 ds hnew.2
      refine ⟨filled', hkeep, fun other d hmem => ?_, hread⟩
      rcases List.mem_cons.mp hmem with h | h
      · cases h
      · exact hfill other d h
    · rw [List.forall_mem_cons] at hsub hnew
      -- the slots to come share no name with this one, so none of them is filled with it
      have hnew' : ∀ other ∈ slots, other.names ∉ slot.names :: filled := by
        intro other ho hmem
        rcases List.mem_cons.mp hmem with he | hmem
        · have hname := hslots.tail.name_mem ho
          exact hslots.notMem_names ho hname (he ▸ hname)
        · exact hnew.2 other ho hmem
      obtain ⟨filled', hkeep, hfill, hread⟩ := ih hslots.tail hsub.2 ds hnew'
      refine ⟨filled', fun names h => hkeep names (List.mem_cons_of_mem _ h), ?_, fun s => ?_⟩
      · intro other d' hmem
        rcases List.mem_cons.mp hmem with h | h
        · cases h
          exact hkeep slot.names List.mem_cons_self
        · exact hfill other d' h
      · have hfresh : filled.contains slot.names = false := by simpa using hnew.1
        simp only [List.map_cons, present, Option.map_some, Option.toList_some,
          List.singleton_append, readFields, hall.find?_name hsub.1, hfresh, Bool.false_eq_true,
          if_false, fillAll, Slot.fill]
        cases slot.read d s with
        | error e => rfl
        | ok s' => exact hread s'

def Slot.Served {α : Type} (slot : Slot δ σ) (a : Option α) : Prop :=
  slot.presence ≠ .always ∨ a.isSome

/-- No field is missing where the slots that have one are filled. -/
theorem all_filled {slots : List (Slot δ σ)} {ds : List (Option δ)}
    (hserved : List.Forall₂ Slot.Served slots ds) {filled : List (List String)}
    (hfill : ∀ slot d, (slot, some d) ∈ slots.zip ds → slot.names ∈ filled) :
    slots.all (fun slot => slot.presence ≠ .always || filled.contains slot.names) = true := by
  induction hserved with
  | nil => rfl
  | @cons slot d slots ds hslot _ ih =>
    rw [List.all_cons, Bool.and_eq_true]
    refine ⟨?_, ih fun other d' h => hfill other d' (List.mem_cons_of_mem _ h)⟩
    rcases hslot with halways | hsome
    · simp [halways]
    · obtain ⟨d', rfl⟩ := Option.isSome_iff_exists.mp hsome
      simp [hfill slot d' List.mem_cons_self]

/-- A record whose fields stand in the order of its slots is read slot by slot, if no field is
missing that has to be there. -/
theorem readRecord_present {slots : List (Slot δ σ)} (hslots : Slot.WellNamed slots)
    (pass : δ → Except ReadError Unit) {ds : List (Option δ)}
    (hserved : List.Forall₂ Slot.Served slots ds) (s : σ) :
    readRecord slots pass s
        (.fields ((present (slots.map Slot.name) ds).map fun f => (some f.1, f.2))) =
      fillAll slots ds s := by
  obtain ⟨filled, -, hfill, hread⟩ :=
    readFields_present hslots pass hslots (fun _ h => h) ds fun _ _ => List.not_mem_nil
  rw [readRecord, hread s]
  cases fillAll slots ds s with
  | error e => rfl
  | ok s' => exact if_pos (all_filled hserved hfill)

section Kept

variable {slots : List (Slot δ σ)} {pass : δ → Except ReadError Unit} {P : σ → Prop}
  {entries : List (Option String × δ)} {filled filled' : List (List String)} {s s' : σ}

/-- A field that is read has a name. Either no slot has it too, or one that was not filled yet. -/
theorem readFields_cons_eq_ok {name? : Option String} {d : δ} {r : List (List String) × σ}
    (h : readFields slots pass ((name?, d) :: entries) filled s = .ok r) :
    ∃ name, name? = some name ∧
      ((slots.find? (·.names.contains name) = none ∧
          readFields slots pass entries filled s = .ok r) ∨
        ∃ slot s₁, slots.find? (·.names.contains name) = some slot ∧ slot.names ∉ filled ∧
          slot.read d s = .ok s₁ ∧
          readFields slots pass entries (slot.names :: filled) s₁ = .ok r) := by
  cases name? with
  | none => cases h
  | some name =>
    refine ⟨name, rfl, ?_⟩
    rw [readFields] at h
    split at h
    · next hslot =>
      refine .inl ⟨hslot, ?_⟩
      cases hd : pass d with
      | error e =>
        rw [hd] at h
        cases h
      | ok u =>
        rw [hd] at h
        exact h
    · next slot hslot =>
      split at h
      · cases h
      · next hfilled =>
        cases hd : slot.read d s with
        | error e =>
          rw [hd] at h
          cases h
        | ok s₁ =>
          rw [hd] at h
          exact .inr ⟨slot, s₁, hslot, by simpa using hfilled, hd, h⟩

/-- What every field keeps that fills a slot not filled yet is so at the end. -/
theorem readFields_keeps (hs : P s)
    (hkeep : ∀ name d slot, (some name, d) ∈ entries →
      slots.find? (·.names.contains name) = some slot → slot.names ∉ filled →
      ∀ t t', slot.read d t = .ok t' → P t → P t')
    (h : readFields slots pass entries filled s = .ok (filled', s')) : P s' := by
  induction entries generalizing filled s with
  | nil =>
    cases h
    exact hs
  | cons entry entries ih =>
    obtain ⟨name, hname, ⟨-, h⟩ | ⟨slot, s₁, hslot, hnew, hread, h⟩⟩ := readFields_cons_eq_ok h
    · exact ih hs (fun n d slot hmem => hkeep n d slot (List.mem_cons_of_mem entry hmem)) h
    · have hentry : (some name, entry.2) ∈ entry :: entries := hname ▸ List.mem_cons_self
      refine ih (hkeep name entry.2 slot hentry hslot hnew s s₁ hread hs) ?_ h
      intro n d other hmem hother hfresh
      exact hkeep n d other (List.mem_cons_of_mem entry hmem) hother
        fun hf => hfresh (List.mem_cons_of_mem slot.names hf)

/-- What one field brings about and every other slot keeps is so at the end: no slot is filled
twice. -/
theorem readFields_brings {name : String} {d : δ} {slot : Slot δ σ}
    (hmem : (some name, d) ∈ entries) (hslot : slots.find? (·.names.contains name) = some slot)
    (hbring : ∀ t t', slot.read d t = .ok t' → P t')
    (hkeep : ∀ other ∈ slots, other.names ≠ slot.names →
      ∀ d t t', other.read d t = .ok t' → P t → P t')
    (h : readFields slots pass entries filled s = .ok (filled', s')) : P s' := by
  induction entries generalizing filled s with
  | nil => cases hmem
  | cons entry entries ih =>
    obtain ⟨n, hn, hcase⟩ := readFields_cons_eq_ok h
    rcases List.mem_cons.mp hmem with rfl | hmem
    · cases hn
      obtain ⟨hnone, -⟩ | ⟨other, s₁, hother, -, hread, h⟩ := hcase
      · rw [hnone] at hslot
        cases hslot
      · cases hother.symm.trans hslot
        refine readFields_keeps (hbring s s₁ hread) ?_ h
        intro n' d' other hmem' hother' hfresh
        exact hkeep other (List.mem_of_find?_eq_some hother')
          (fun he => hfresh (he ▸ List.mem_cons_self)) d'
    · obtain ⟨-, h⟩ | ⟨_, _, -, -, -, h⟩ := hcase
      · exact ih hmem h
      · exact ih hmem h

/-- What every slot keeps is so when the items are read. -/
theorem readItems_keeps {ds : List δ} (hs : P s)
    (hkeep : ∀ slot ∈ slots, ∀ d t t', slot.read d t = .ok t' → P t → P t')
    (h : readItems slots ds s = .ok s') : P s' := by
  induction slots generalizing ds s with
  | nil =>
    cases ds with
    | nil =>
      cases h
      exact hs
    | cons d ds => cases h
  | cons slot slots ih =>
    rw [List.forall_mem_cons] at hkeep
    cases ds with
    | nil =>
      rw [readItems] at h
      split at h
      · cases h
        exact hs
      · cases h
    | cons d ds =>
      rw [readItems] at h
      cases hd : slot.read d s with
      | error e =>
        rw [hd] at h
        cases h
      | ok s₁ =>
        rw [hd] at h
        exact ih (hkeep.1 d s s₁ hd hs) hkeep.2 h

end Kept

end KineticAlphabet
