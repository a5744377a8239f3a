import Backchain.Clause.Basic
import Backchain.Text.Plain
import Backchain.Unification

/-!
# The log

What is worth telling about a search and about additions to a knowledge base is recorded as
events. An entry of the log has a level, a target (the part of the program that it comes from) and
a message.
-/

namespace Backchain

inductive Level where
  | warn
  | info
  | debug
  | trace
deriving DecidableEq

def Level.label : Level → String
  | .warn => "WARN"
  | .info => "INFO"
  | .debug => "DEBUG"
  | .trace => "TRACE"

def Level.shown (verbose : Bool) : Level → Bool
  | .warn => true
  | .info | .debug => verbose
  | .trace => false

structure LogEntry where
  level : Level
  target : String
  message : String
deriving DecidableEq

/-- The entry as plain text, up to the end of its line. The further lines of a message are
indented. A message with a sequence that does not end takes the end of the line with it. -/
def LogEntry.render (entry : LogEntry) : String :=
  let label := String.ofList (entry.level.label.toList.rightpad 5 ' ')
  let message := entry.message.toList.flatMap fun c => if c = '\n' then "\n    ".toList else [c]
  Text.plain ("[" ++ label ++ " " ++ entry.target ++ "] " ++ String.ofList message ++ "\n")

inductive Event where
  /-- A goal and a candidate have different constants in one place. -/
  | clash (goal candidate : Term) (left right : Atom)
  | cutOff (goal : Term) (bound : Nat)
  | reentered (goal : Term)
  | matched (goal : Term) (rule : Rule) (seed : Substitution)
  | told (clause : Clause)
  | answered (goal : Term) (answers cutoffs : Nat)
deriving DecidableEq

namespace Event

def level : Event → Level
  | .cutOff .. => .warn
  | .told _ | .answered .. => .debug
  | .clash .. | .reentered _ | .matched .. => .trace

def target : Event → String
  | .clash .. => "microprolog::unify"
  | .cutOff .. | .reentered _ | .matched .. => "microprolog::resolver"
  | .told _ | .answered .. => "microprolog::engine"

def message : Event → String
  | .clash goal candidate left right =>
    goal.render ++ " does not unify with " ++ candidate.render ++ ": " ++ left.name ++ " != " ++
      right.name
  | .cutOff goal bound =>
    "maximum resolution depth " ++ toString bound ++ " exceeded for goal " ++ goal.render
  | .reentered goal => "goal " ++ goal.render ++ " already visited, skipping"
  | .matched goal rule seed =>
    "goal " ++ goal.render ++ " matched rule " ++ rule.render ++ " with " ++ seed.render
  | .told (.fact term) => "adding fact " ++ term.render
  | .told (.rule rule) => "adding rule " ++ rule.render
  | .answered goal answers cutoffs =>
    "query " ++ goal.render ++ ": " ++ toString answers ++ " result(s), " ++ toString cutoffs ++
      " diagnostic(s)"

def entry (event : Event) : LogEntry := ⟨event.level, event.target, event.message⟩

end Event

/-- A value and what was logged on the way to it, oldest first. -/
structure Logged (α : Type) where
  value : α
  log : List Event

def Logged.map (f : α → β) (x : Logged α) : Logged β := ⟨f x.value, x.log⟩

end Backchain
