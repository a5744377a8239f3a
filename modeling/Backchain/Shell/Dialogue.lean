import Backchain.Reasoner
import Backchain.Json.Export
import Backchain.Shell.Options
import Backchain.Text.Lines

/-!
# The dialogue at the prompt

Each line of the input is a command: a query after `?-`, one of a few words, or else a clause to
add. A line that cannot be read is answered with the reason and changes nothing. The dialogue ends
with the input, at `quit` or `exit`, or at a line that is not UTF-8.
-/

namespace Backchain.Shell

def prompt : String := "| "

def helpLines : List String :=
  ["voli(ivan, ana).                          add a fact",
    "  prijatelj(X, Y) :- voli(X, Y), voli(Y, X). add a rule",
    "  ?- prijatelj(ivan, ana)                   run a query",
    "  facts                                     list facts",
    "  rules                                     list rules",
    "  help                                      show this text",
    "  quit                                      leave"]

inductive Command where
  | blank
  | quit
  | help
  | facts
  | rules
  | query (goal : String)
  | clause (text : String)
deriving DecidableEq

/-- The command on a line. White space around it does not count. -/
def Command.ofLine (line : String) : Command :=
  match Text.trim line with
  | "" => .blank
  | "quit" => .quit
  | "exit" => .quit
  | "help" => .help
  | "facts" => .facts
  | "rules" => .rules
  | text =>
    match text.toList with
    | '?' :: '-' :: goal => .query (String.ofList goal)
    | _ => .clause text

structure Reply where
  lines : List String := []
  log : List Event := []

def Reply.text (reply : Reply) : String := String.join (reply.lines.map (· ++ "\n"))

def describe (goal : String) (findings : Search.Findings) : List String :=
  if findings.satisfied then
    ("Query " ++ goal ++ " is satisfied:") ::
      findings.answers.map fun answer => "  " ++ answer.render
  else if findings.cutShort then
    ["Query " ++ goal ++ " is not satisfied (search depth limit reached)."]
  else ["Query " ++ goal ++ " is not satisfied."]

def replyToQuery (json : Bool) (reasoner : Reasoner) (goal : String) : Reply :=
  match reasoner.askText goal with
  | .error cause => { lines := [cause.message] }
  | .ok found =>
    let lines :=
      if json then [String.ofList (Substitution.listToJson found.value.answers)]
      else describe (Text.trim goal) found.value
    ⟨lines, found.log⟩

def confirm : Clause → String
  | .fact term => "Fact " ++ term.render ++ " added."
  | .rule rule => "Rule " ++ rule.render ++ " added."

/-- Carries out a command. Only a clause makes the reasoner another one. -/
def obey (json : Bool) (reasoner : Reasoner) : Command → Reply × Reasoner
  | .blank | .quit => ({}, reasoner)
  | .help => ({ lines := helpLines }, reasoner)
  | .facts => ({ lines := reasoner.facts.map fun fact => fact.render ++ "." }, reasoner)
  | .rules => ({ lines := reasoner.rules.map fun rule => rule.render ++ "." }, reasoner)
  | .query goal => (replyToQuery json reasoner goal, reasoner)
  | .clause text =>
    match reasoner.tellText text with
    | .error cause => ({ lines := [cause.message] }, reasoner)
    | .ok (clause, told) => (⟨[confirm clause], told.log⟩, told.value)

inductive Ending where
  | endOfInput
  | quit
  | notUtf8
deriving DecidableEq

/-- One line of a dialogue: the reply to it, the reasoner after it, and how the dialogue ends with
it, if it does. -/
structure Turn where
  reply : Reply
  reasoner : Reasoner
  ending : Option Ending

def takeTurn (json : Bool) (reasoner : Reasoner) (line : List UInt8) : Turn :=
  match Text.decode? line with
  | none => ⟨{}, reasoner, some .notUtf8⟩
  | some line =>
    let command := Command.ofLine line
    let (reply, reasoner) := obey json reasoner command
    ⟨reply, reasoner, if command = .quit then some .quit else none⟩

/-- The replies to all lines that were read, the reasoner after them and why no more were read. -/
structure Dialogue where
  replies : List Reply
  reasoner : Reasoner
  ending : Ending

def converse (json : Bool) (reasoner : Reasoner) : List (List UInt8) → Dialogue
  | [] => ⟨[], reasoner, .endOfInput⟩
  | line :: rest =>
    let turn := takeTurn json reasoner line
    match turn.ending with
    | some ending => ⟨[turn.reply], turn.reasoner, ending⟩
    | none =>
      let later := converse json turn.reasoner rest
      { later with replies := turn.reply :: later.replies }

namespace Dialogue

def log (dialogue : Dialogue) : List Event := dialogue.replies.flatMap Reply.log

/-- There is a prompt before each line, and one more where the input ended instead. -/
def output (dialogue : Dialogue) : String :=
  String.join (dialogue.replies.map fun reply => prompt ++ reply.text) ++
    if dialogue.ending = .endOfInput then prompt else ""

end Dialogue

end Backchain.Shell
