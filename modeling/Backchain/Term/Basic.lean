import Backchain.Atom
import Backchain.Error

/-!
# Terms

A term is a predicate symbol applied to atoms, such as `likes(ivan, X)`. It is flat: no argument
is itself a term. A symbol is never empty and there is always an argument.
-/

namespace Backchain

structure Term where
  symbol : String
  arguments : List Atom
  symbol_ne : symbol ≠ ""
  arguments_ne : arguments ≠ []
deriving DecidableEq

namespace Term

/-- The term with these parts. An empty symbol is reported before a lack of arguments. -/
def make (symbol : String) (arguments : List Atom) : Except Error Term :=
  if hs : symbol = "" then .error .emptySymbol
  else if ha : arguments = [] then .error (.noArguments symbol)
  else .ok ⟨symbol, arguments, hs, ha⟩

def arity (t : Term) : Nat := t.arguments.length

def hasVariables (t : Term) : Bool := t.arguments.any Atom.isVariable

def mapArguments (f : Atom → Atom) (t : Term) : Term :=
  { t with
    arguments := t.arguments.map f
    arguments_ne := by simpa using t.arguments_ne }

def render (t : Term) : String :=
  t.symbol ++ "(" ++ String.intercalate ", " (t.arguments.map Atom.name) ++ ")"

-- ---------------------------------------------------------------------------
-- Laws
-- ---------------------------------------------------------------------------

@[ext]
theorem ext {t u : Term} (hs : t.symbol = u.symbol) (ha : t.arguments = u.arguments) : t = u := by
  cases t
  cases u
  simp_all

@[simp]
theorem symbol_mapArguments (f : Atom → Atom) (t : Term) :
    (t.mapArguments f).symbol = t.symbol := rfl

@[simp]
theorem arguments_mapArguments (f : Atom → Atom) (t : Term) :
    (t.mapArguments f).arguments = t.arguments.map f := rfl

@[simp]
theorem arity_mapArguments (f : Atom → Atom) (t : Term) :
    (t.mapArguments f).arity = t.arity := by
  simp [arity]

theorem make_eq_ok_iff {symbol : String} {arguments : List Atom} {t : Term} :
    make symbol arguments = .ok t ↔ t.symbol = symbol ∧ t.arguments = arguments := by
  unfold make
  constructor
  · intro h
    split at h
    · cases h
    · split at h
      · cases h
      · cases h
        exact ⟨rfl, rfl⟩
  · rintro ⟨rfl, rfl⟩
    simp [t.symbol_ne, t.arguments_ne]

end Term

end Backchain
