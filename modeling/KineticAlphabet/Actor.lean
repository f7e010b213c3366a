/-!
The two actors, blue and red, and pairs with one value for each of them. Nearly everything here
comes in such pairs: motions, locations, reversal flags, spin locks.
-/
namespace KineticAlphabet

inductive Actor
  | blue
  | red
deriving DecidableEq, Repr

namespace Actor

def all : List Actor := [blue, red]

def name : Actor → String
  | blue => "blue"
  | red => "red"

def title : Actor → String
  | blue => "Blue"
  | red => "Red"

def ofName? (s : String) : Option Actor := all.find? (·.name == s)

theorem forall_iff {p : Actor → Prop} : (∀ a, p a) ↔ p blue ∧ p red :=
  ⟨fun h => ⟨h blue, h red⟩, fun h a => match a with
    | blue => h.1
    | red => h.2⟩

end Actor

/-- A value for each actor. -/
structure Duo (α : Type) where
  blue : α
  red : α
deriving DecidableEq, Repr

namespace Duo

variable {α β : Type}

def get (d : Duo α) : Actor → α
  | .blue => d.blue
  | .red => d.red

def set (d : Duo α) (actor : Actor) (a : α) : Duo α :=
  match actor with
  | .blue => { d with blue := a }
  | .red => { d with red := a }

def ofFn (f : Actor → α) : Duo α := ⟨f .blue, f .red⟩

def map (f : α → β) (d : Duo α) : Duo β := ⟨f d.blue, f d.red⟩

def swap (d : Duo α) : Duo α := ⟨d.red, d.blue⟩

def toList (d : Duo α) : List α := [d.blue, d.red]

/-- Both values, if neither is absent. -/
def both? : Duo (Option α) → Option (Duo α)
  | ⟨some b, some r⟩ => some ⟨b, r⟩
  | _ => none

def all (p : α → Bool) (d : Duo α) : Bool := p d.blue && p d.red

@[ext] theorem ext {d e : Duo α} (hb : d.blue = e.blue) (hr : d.red = e.red) : d = e := by
  cases d; cases e; simp_all

@[simp] theorem get_blue (d : Duo α) : d.get .blue = d.blue := rfl
@[simp] theorem get_red (d : Duo α) : d.get .red = d.red := rfl
@[simp] theorem get_ofFn (f : Actor → α) (a : Actor) : (ofFn f).get a = f a := by cases a <;> rfl
@[simp] theorem get_map (f : α → β) (d : Duo α) (a : Actor) : (d.map f).get a = f (d.get a) := by
  cases a <;> rfl
@[simp] theorem map_swap (f : α → β) (d : Duo α) : d.swap.map f = (d.map f).swap := rfl

theorem both?_eq_some_iff {d : Duo (Option α)} {e : Duo α} :
    d.both? = some e ↔ d.blue = some e.blue ∧ d.red = some e.red := by
  rcases d with ⟨_ | b, _ | r⟩ <;> simp [both?, Duo.ext_iff]

end Duo

end KineticAlphabet
