import Backchain.Term.Basic
import Backchain.Text.WhiteSpace

/-!
# Reading terms

The written form of a term is a symbol, an opening parenthesis right after it, arguments with
commas between them, and a closing parenthesis. Blanks (space, tab, carriage return, line feed)
may stand around the term and around each argument, and nowhere else. As no argument holds a
comma or a parenthesis, the arguments are what stands between the commas up to the first closing
parenthesis.
-/

namespace Backchain.Term

def isSymbolChar (c : Char) : Bool := c.isAlphanum || c == '_'

def isArgumentChar (c : Char) : Bool :=
  c != ',' && c != '(' && c != ')' && !Text.isWhiteSpace c

/-- The atom written in a piece of text, with blanks around it. -/
def readArgument? (piece : List Char) : Option Atom :=
  let token := Text.strip Char.isWhitespace piece
  if token ≠ [] ∧ token.all isArgumentChar then some (.ofToken (String.ofList token)) else none

/-- The term of which the characters are a written form. -/
def ofChars? (text : List Char) : Option Term :=
  let start := text.dropWhile Char.isWhitespace
  let symbol := String.ofList (start.takeWhile isSymbolChar)
  match start.dropWhile isSymbolChar with
  | '(' :: inner =>
    match inner.dropWhile (· != ')') with
    | [] => none
    | _ :: tail =>
      if tail.all Char.isWhitespace then do
        let arguments ← ((inner.takeWhile (· != ')')).splitOn ',').mapM readArgument?
        (make symbol arguments).toOption
      else none
  | _ => none

/-- Reads one term. A text that is none is reported without the white space around it. -/
def read (text : String) : Except Error Term :=
  match ofChars? text.toList with
  | some term => .ok term
  | none => .error (.malformedTerm (Text.trim text))

-- ---------------------------------------------------------------------------
-- Blanks around a term and around its arguments, and nowhere else
-- ---------------------------------------------------------------------------

example : ((ofChars? " likes(\tivan,X )\n".toList).map render) = some "likes(ivan, X)" := by
  decide +kernel

example : ofChars? "likes (ivan)".toList = none := by decide +kernel

example : ofChars? "likes(ivan,)".toList = none := by decide +kernel

theorem read_eq_ok_iff {text : String} {t : Term} :
    read text = .ok t ↔ ofChars? text.toList = some t := by
  unfold read
  split <;> simp_all

theorem read_eq_error_iff {text : String} {e : Error} :
    read text = .error e ↔ ofChars? text.toList = none ∧ e = .malformedTerm (Text.trim text) := by
  unfold read
  split
  · rename_i h
    simp [h]
  · rename_i h
    simp [h, eq_comm]

end Backchain.Term
