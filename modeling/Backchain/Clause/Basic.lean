import Backchain.Term.Basic

/-!
# Clauses and knowledge bases

A clause is a fact or a rule. A knowledge base lists its facts and its rules, each in the order in
which they were added, and keeps duplicates.
-/

namespace Backchain

/-- The head holds when all goals of the body hold, under one substitution. -/
structure Rule where
  head : Term
  body : List Term
deriving DecidableEq

/-- The text of the rule: `h(X) :- b(X), c(X)`, and the head alone when the body is empty. -/
def Rule.render (rule : Rule) : String :=
  match rule.body with
  | [] => rule.head.render
  | body => rule.head.render ++ " :- " ++ String.intercalate ", " (body.map Term.render)

inductive Clause where
  | fact (term : Term)
  | rule (rule : Rule)
deriving DecidableEq

structure KnowledgeBase where
  facts : List Term := []
  rules : List Rule := []
deriving DecidableEq

namespace KnowledgeBase

def add (kb : KnowledgeBase) : Clause → KnowledgeBase
  | .fact term => { kb with facts := kb.facts ++ [term] }
  | .rule rule => { kb with rules := kb.rules ++ [rule] }

def size (kb : KnowledgeBase) : Nat := kb.facts.length + kb.rules.length

def isEmpty (kb : KnowledgeBase) : Bool := kb.facts.isEmpty && kb.rules.isEmpty

end KnowledgeBase

end Backchain
