/-!
# Plain text

A text without what would control a terminal: control characters other than the four that only
move on (tab, line feed, form feed, carriage return), and control sequences. An escape character
starts a sequence and the characters after it tell where it ends; a sequence that does not end
takes the rest of the text with it.

The four characters are kept inside a sequence of the kinds that do not hold a string. What follows
is kept too, until the next control character or escape character; there the sequence goes on.
-/

namespace Backchain.Text

/-- The kind of sequence that a place of a text is in. -/
inductive Sequence where
  | none
  /-- Right after an escape character. -/
  | escape
  /-- After an escape character and further characters below the digits. -/
  | intermediate
  /-- Opened by a bracket. -/
  | control
  /-- A string opened by a closing bracket, which a bell ends. -/
  | command
  /-- The three parts of what stands before a device control string. -/
  | deviceEntry
  | deviceParameter
  | deviceIntermediate
  /-- A string that a terminator byte ends. -/
  | string
deriving DecidableEq

/-- Whether the UTF-8 form of the character has the byte that terminates a string. -/
def hasTerminator (c : Char) : Bool := (String.utf8EncodeChar c).contains 0x9C

/-- The kind of sequence after one more character. Cancel and substitute end every sequence, and an
escape character starts a new one. -/
def Sequence.next (sequence : Sequence) (c : Char) : Sequence :=
  let code := c.toNat
  let low := 0x20 ≤ code && code ≤ 0x2F
  let final := 0x40 ≤ code && code ≤ 0x7E
  if code = 0x18 ∨ code = 0x1A then .none
  else if code = 0x1B then .escape
  else match sequence with
    | .none => .none
    | .escape =>
      if low then .intermediate
      else if c = '[' then .control
      else if c = ']' then .command
      else if c = 'P' then .deviceEntry
      else if c = 'X' ∨ c = '^' ∨ c = '_' then .string
      else if 0x30 ≤ code ∧ code ≤ 0x7E then .none
      else .escape
    | .intermediate => if 0x30 ≤ code ∧ code ≤ 0x7E then .none else .intermediate
    | .control => if final then .none else .control
    | .command => if code = 0x07 then .none else .command
    | .deviceEntry =>
      if low then .deviceIntermediate
      else if 0x30 ≤ code ∧ code ≤ 0x3F then .deviceParameter
      else if final then .string
      else .deviceEntry
    | .deviceParameter =>
      if low then .deviceIntermediate
      else if 0x3C ≤ code ∧ code ≤ 0x7E then .string
      else .deviceParameter
    | .deviceIntermediate =>
      if 0x30 ≤ code ∧ code ≤ 0x7E then .string else .deviceIntermediate
    | .string => if hasTerminator c then .none else .string

def isMove (c : Char) : Bool := c == '\t' || c == '\n' || c == '\x0c' || c == '\r'

def isPrintable (c : Char) : Bool :=
  isMove c || (0x20 ≤ c.toNat && c.toNat ≤ 0x7E) || 0x80 ≤ c.toNat

/-- Whether the character is kept at a place in a sequence that hides text. -/
def Sequence.keeps (sequence : Sequence) (c : Char) : Bool :=
  match sequence with
  | .none => isPrintable c
  | .escape | .intermediate | .control => isMove c
  | _ => false

/-- The printable characters of a text. `shown` tells that the last character was kept, which it
may have been inside a sequence. A character beyond ASCII that is kept there ends the sequence. -/
def plainFrom (sequence : Sequence) (shown : Bool) : List Char → List Char
  | [] => []
  | c :: rest =>
    if shown && isPrintable c then
      c :: plainFrom (if 0x80 ≤ c.toNat then .none else sequence) true rest
    else if sequence.keeps c then c :: plainFrom (sequence.next c) true rest
    else plainFrom (sequence.next c) false rest

def plain (text : String) : String := String.ofList (plainFrom .none true text.toList)

example : plain "a\x1b[1;31mb\x07\x1b]0;title\x07c\td" = "abc\td" := by decide +kernel

end Backchain.Text
