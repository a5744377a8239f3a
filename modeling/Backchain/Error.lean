/-!
# Errors

Why a term cannot be built or a text cannot be read.
-/

namespace Backchain

inductive Error where
  /-- The text, trimmed, is not of the form that was asked for. -/
  | malformedTerm (input : String)
  | emptySymbol
  | noArguments (symbol : String)
deriving DecidableEq

def Error.message : Error → String
  | .malformedTerm input => "malformed term `" ++ input ++ "`, expected e.g. `likes(X, Y)`"
  | .emptySymbol => "term symbol must not be empty"
  | .noArguments symbol => "term `" ++ symbol ++ "` needs at least one argument"

end Backchain
