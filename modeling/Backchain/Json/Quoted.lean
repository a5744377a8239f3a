/-!
# JSON string literals

`quote` writes a text as a string literal, in its shortest form: only the quotation mark, the
backslash and the control characters below the space are escaped. `unquote?` reads any string
literal, with every escape that JSON has, and accepts a code point beyond the first 65536 as two
surrogate escapes.
-/

namespace Backchain.Json

-- ---------------------------------------------------------------------------
-- Writing
-- ---------------------------------------------------------------------------

def hexDigit (n : Nat) : Char := if n < 10 then .ofNat (0x30 + n) else .ofNat (0x57 + n)

def escape (c : Char) : List Char :=
  if c = '"' then ['\\', '"']
  else if c = '\\' then ['\\', '\\']
  else if c = '\x08' then ['\\', 'b']
  else if c = '\x0c' then ['\\', 'f']
  else if c = '\n' then ['\\', 'n']
  else if c = '\r' then ['\\', 'r']
  else if c = '\t' then ['\\', 't']
  else if c.toNat < 0x20 then
    ['\\', 'u', '0', '0', hexDigit (c.toNat / 16), hexDigit (c.toNat % 16)]
  else [c]

def quote (text : List Char) : List Char := '"' :: text.flatMap escape ++ ['"']

-- ---------------------------------------------------------------------------
-- Reading
-- ---------------------------------------------------------------------------

/-- What one place of a string literal stands for: a character, or sixteen bits of one. -/
inductive Piece where
  | char (c : Char)
  | unit (bits : Nat)
deriving DecidableEq

def hexValue? (c : Char) : Option Nat :=
  if '0' ≤ c ∧ c ≤ '9' then some (c.toNat - 0x30)
  else if 'a' ≤ c ∧ c ≤ 'f' then some (c.toNat - 0x57)
  else if 'A' ≤ c ∧ c ≤ 'F' then some (c.toNat - 0x37)
  else none

def hexNumber? (digits : List Char) : Option Nat :=
  digits.foldlM (fun value digit => (hexValue? digit).map (value * 16 + ·)) 0

/-- The character that stands after a backslash for another one. -/
def unescape? (c : Char) : Option Char :=
  match c with
  | '"' => some '"'
  | '\\' => some '\\'
  | '/' => some '/'
  | 'b' => some '\x08'
  | 'f' => some '\x0c'
  | 'n' => some '\n'
  | 'r' => some '\r'
  | 't' => some '\t'
  | _ => none

/-- The pieces up to the closing quotation mark, and what follows it. -/
def pieces? : List Char → Option (List Piece × List Char)
  | [] => none
  | c :: rest =>
    if c = '"' then some ([], rest)
    else if c = '\\' then
      match rest with
      | 'u' :: h :: i :: j :: k :: rest => do
        let bits ← hexNumber? [h, i, j, k]
        let (pieces, after) ← pieces? rest
        return (.unit bits :: pieces, after)
      | escaped :: rest => do
        let c ← unescape? escaped
        let (pieces, after) ← pieces? rest
        return (.char c :: pieces, after)
      | [] => none
    else if c.toNat < 0x20 then none
    else do
      let (pieces, after) ← pieces? rest
      return (.char c :: pieces, after)

/-- Joins each leading surrogate with the trailing one after it. A lone surrogate is no text. -/
def joinSurrogates? : List Piece → Option (List Char)
  | [] => some []
  | .char c :: rest => (joinSurrogates? rest).map (c :: ·)
  | .unit bits :: rest =>
    if bits < 0xD800 ∨ 0xE000 ≤ bits then (joinSurrogates? rest).map (.ofNat bits :: ·)
    else match rest with
      | .unit low :: rest =>
        if bits < 0xDC00 ∧ 0xDC00 ≤ low ∧ low < 0xE000 then
          (joinSurrogates? rest).map
            (.ofNat (0x10000 + (bits - 0xD800) * 0x400 + (low - 0xDC00)) :: ·)
        else none
      | _ => none

/-- The text of which the characters are a string literal, with blanks around it. -/
def unquote? (literal : List Char) : Option (List Char) :=
  match literal.dropWhile Char.isWhitespace with
  | '"' :: rest => do
    let (pieces, after) ← pieces? rest
    if after.all Char.isWhitespace then joinSurrogates? pieces else none
  | _ => none

-- ---------------------------------------------------------------------------
-- Both escapes of one character
-- ---------------------------------------------------------------------------

example : quote "a\"\x1f".toList = "\"a\\\"\\u001f\"".toList := by decide

example : unquote? "\"\\uD83D\\ude00\\/\" ".toList = some "😀/".toList := by decide +kernel

example : unquote? "\"\\ude00\"".toList = none := by decide +kernel

end Backchain.Json
