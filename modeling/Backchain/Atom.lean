import Backchain.Text.Uppercase

/-!
# Atoms

An atom is a variable or a constant, and has a name. A token of a text is classified by its
first character alone: a capital makes it a variable.
-/

namespace Backchain

inductive Atom where
  | var (name : String)
  | const (name : String)
deriving DecidableEq

namespace Atom

def name : Atom → String
  | .var name => name
  | .const name => name

def isVariable : Atom → Bool
  | .var _ => true
  | .const _ => false

/-- The atom that a token stands for. The empty token is a constant. -/
def ofToken (token : String) : Atom :=
  if token.toList.head?.any Text.isUppercase then .var token else .const token

/-- The atom is what its own name stands for. -/
def Conventional (a : Atom) : Prop := ofToken a.name = a

instance : DecidablePred Conventional := fun a => inferInstanceAs (Decidable (ofToken a.name = a))

@[simp]
theorem name_ofToken (token : String) : (ofToken token).name = token := by
  unfold ofToken
  split <;> rfl

theorem conventional_ofToken (token : String) : (ofToken token).Conventional := by
  rw [Conventional, name_ofToken]

/-- Atoms that follow the convention are equal as soon as their names are. -/
theorem Conventional.eq_of_name_eq {a b : Atom} (ha : a.Conventional) (hb : b.Conventional)
    (h : a.name = b.name) : a = b := by
  rw [← ha, ← hb, h]

end Atom

end Backchain
