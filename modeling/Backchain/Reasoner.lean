import Backchain.Clause.Reader
import Backchain.Search.BackwardChaining

/-!
# The reasoner

A knowledge base and the settings that it is searched with. It is told clauses and asked goals,
which are given as values or as text. A text that cannot be read is an error and changes nothing.
-/

namespace Backchain

structure Reasoner where
  knowledge : KnowledgeBase := {}
  settings : Settings := {}
deriving DecidableEq

namespace Reasoner

def facts (reasoner : Reasoner) : List Term := reasoner.knowledge.facts

def rules (reasoner : Reasoner) : List Rule := reasoner.knowledge.rules

-- ---------------------------------------------------------------------------
-- Telling
-- ---------------------------------------------------------------------------

def tell (reasoner : Reasoner) (clause : Clause) : Logged Reasoner :=
  ⟨{ reasoner with knowledge := reasoner.knowledge.add clause }, [.told clause]⟩

def tellFact (reasoner : Reasoner) (text : String) : Except Error (Logged Reasoner) := do
  return reasoner.tell (.fact (← Term.read text))

/-- Tells the rule whose head and goals are given one by one. The first of them that is no term is
the error. -/
def tellRule (reasoner : Reasoner) (head : String) (body : List String) :
    Except Error (Logged Reasoner) := do
  let head ← Term.read head
  let body ← body.mapM Term.read
  return reasoner.tell (.rule ⟨head, body⟩)

def tellText (reasoner : Reasoner) (text : String) :
    Except Error (Clause × Logged Reasoner) := do
  let clause ← Clause.read text
  return (clause, reasoner.tell clause)

-- ---------------------------------------------------------------------------
-- Asking
-- ---------------------------------------------------------------------------

def ask (reasoner : Reasoner) (goal : Term) : Logged Search.Findings :=
  let found := Search.solve reasoner.knowledge reasoner.settings goal
  let closing := .answered goal found.value.answers.length found.value.cutoffs.length
  { found with log := found.log ++ [closing] }

/-- Asks for a goal that has been reached at a depth, in a search that is under way. -/
def askWithin (reasoner : Reasoner) (goal : Term) (state : Search.State) (depth : Nat) :
    Search.Outcome :=
  Search.prove reasoner.knowledge reasoner.settings goal state depth

def askText (reasoner : Reasoner) (text : String) : Except Error (Logged Search.Findings) := do
  return reasoner.ask (← Term.read text)

def holds (reasoner : Reasoner) (text : String) : Except Error (Logged Bool) := do
  return (← reasoner.askText text).map Search.Findings.satisfied

end Reasoner

end Backchain
