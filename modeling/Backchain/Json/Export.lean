import Backchain.Clause.Basic
import Backchain.Json.Quoted
import Backchain.Substitution

/-!
# JSON export

Compact JSON, without blanks. An atom is the string of its name, whatever its kind, and a
substitution is the object of its bindings in their order.
-/

namespace Backchain

namespace Json

def array (items : List (List Char)) : List Char :=
  '[' :: [','].intercalate items ++ [']']

def object (fields : List (String × List Char)) : List Char :=
  '{' :: [','].intercalate (fields.map fun (key, value) => quote key.toList ++ ':' :: value) ++ ['}']

end Json

def Atom.toJson (a : Atom) : List Char := Json.quote a.name.toList

def Atom.ofJson? (json : List Char) : Option Atom :=
  (Json.unquote? json).map fun name => .ofToken (String.ofList name)

def Term.toJson (t : Term) : List Char :=
  Json.object [("symbol", Json.quote t.symbol.toList),
    ("arguments", Json.array (t.arguments.map Atom.toJson))]

def Rule.toJson (rule : Rule) : List Char :=
  Json.object [("head", rule.head.toJson), ("body", Json.array (rule.body.map Term.toJson))]

def Substitution.toJson (s : Substitution) : List Char :=
  Json.object (s.bindings.map fun (name, value) => (name, value.toJson))

def Substitution.listToJson (substitutions : List Substitution) : List Char :=
  Json.array (substitutions.map toJson)

end Backchain
