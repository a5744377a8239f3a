import Backchain.Term.Basic

/-!
# Substitutions

A substitution binds names of variables to atoms and keeps its bindings in the order in which the
names were first bound. Applying one looks each variable up once: a bound atom may itself be a
variable, and is not looked up again.
-/

namespace Backchain

/-- Writes `value` at the key `name`: in place if the key is there, else at the end. -/
def writeKey (name : String) (value : Atom) : List (String × Atom) → List (String × Atom)
  | [] => [(name, value)]
  | (key, old) :: rest =>
    if key = name then (name, value) :: rest else (key, old) :: writeKey name value rest

structure Substitution where
  bindings : List (String × Atom)
deriving DecidableEq

namespace Substitution

def empty : Substitution := ⟨[]⟩

def size (s : Substitution) : Nat := s.bindings.length

def isEmpty (s : Substitution) : Bool := s.bindings.isEmpty

def get? (s : Substitution) (name : String) : Option Atom := s.bindings.lookup name

/-- Binds a name, in place of an earlier binding. A name is never bound to an atom of that very
name: such a binding is dropped, and an earlier one stays. -/
def bind (s : Substitution) (name : String) (value : Atom) : Substitution :=
  if name = value.name then s else ⟨writeKey name value s.bindings⟩

def bindAll (s : Substitution) (pairs : List (String × Atom)) : Substitution :=
  pairs.foldl (fun s pair => s.bind pair.1 pair.2) s

def ofPairs (pairs : List (String × Atom)) : Substitution := empty.bindAll pairs

/-- The first substitution with every binding of the second made on top. -/
def update (s t : Substitution) : Substitution := s.bindAll t.bindings

def applyAtom (s : Substitution) : Atom → Atom
  | .var name => (s.get? name).getD (.var name)
  | .const name => .const name

/-- Replaces each bound variable by its value, one level deep. -/
def apply (s : Substitution) (t : Term) : Term := t.mapArguments s.applyAtom

/-- Both substitutions hold the same bindings, in whatever order. -/
def SameBindings (s t : Substitution) : Prop :=
  s.size = t.size ∧ ∀ pair ∈ s.bindings, t.get? pair.1 = some pair.2

instance (s t : Substitution) : Decidable (SameBindings s t) :=
  inferInstanceAs (Decidable (_ ∧ _))

/-- The text of the substitution: each name, a colon and its value, between braces. -/
def render (s : Substitution) : String :=
  "\x7b" ++ String.intercalate ", " (s.bindings.map fun (name, value) => name ++ ": " ++ value.name)
    ++ "\x7d"

-- ---------------------------------------------------------------------------
-- Looking up what was bound
-- ---------------------------------------------------------------------------

theorem lookup_writeKey (name other : String) (value : Atom) (pairs : List (String × Atom)) :
    (writeKey name value pairs).lookup other =
      if other = name then some value else pairs.lookup other := by
  induction pairs with
  | nil =>
    by_cases h : other = name
    · simp [writeKey, h]
    · simp [writeKey, h]
  | cons pair rest ih =>
    obtain ⟨key, old⟩ := pair
    by_cases hk : key = name
    · subst hk
      by_cases h : other = key
      · simp [writeKey, h]
      · simp [writeKey, List.lookup_cons, h, beq_false_of_ne h]
    · by_cases ho : other = key
      · subst ho
        simp [writeKey, hk]
      · simp [writeKey, hk, List.lookup_cons, beq_false_of_ne ho, ih]

/-- A key keeps its place when it is written again, and a new one goes to the end. -/
theorem keys_writeKey (name : String) (value : Atom) (pairs : List (String × Atom)) :
    (writeKey name value pairs).map Prod.fst =
      if name ∈ pairs.map Prod.fst then pairs.map Prod.fst else pairs.map Prod.fst ++ [name] := by
  induction pairs with
  | nil => simp [writeKey]
  | cons pair rest ih =>
    obtain ⟨key, old⟩ := pair
    by_cases hk : key = name
    · simp [writeKey, hk]
    · rw [writeKey, if_neg hk, List.map_cons, ih]
      by_cases hm : name ∈ rest.map Prod.fst <;> simp [hm, Ne.symm hk]

theorem get?_bind (s : Substitution) (name other : String) (value : Atom) :
    (s.bind name value).get? other =
      if other = name ∧ name ≠ value.name then some value else s.get? other := by
  unfold bind
  split
  · rename_i h
    simp [h]
  · rename_i h
    simp [get?, lookup_writeKey, h]

@[simp]
theorem get?_empty (name : String) : empty.get? name = none := rfl

@[simp]
theorem arguments_apply (s : Substitution) (t : Term) :
    (s.apply t).arguments = t.arguments.map s.applyAtom := rfl

@[simp]
theorem applyAtom_empty (a : Atom) : empty.applyAtom a = a := by
  cases a <;> rfl

end Substitution

end Backchain
