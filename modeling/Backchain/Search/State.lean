import Backchain.Term.Basic

/-!
# The state of a search

A search remembers the goals that it has entered, so as to enter none of them twice, and the goals
that it has cut off. Both lists only grow, at their ends.
-/

namespace Backchain.Search

/-- A goal that lay deeper than the bound and was given up. -/
structure Cutoff where
  goal : Term
  depth : Nat
  bound : Nat
deriving DecidableEq

structure State where
  entered : List Term := []
  cutoffs : List Cutoff := []
deriving DecidableEq

namespace State

def empty : State := {}

def enter (state : State) (goal : Term) : State :=
  { state with entered := state.entered ++ [goal] }

def cutOff (state : State) (cutoff : Cutoff) : State :=
  { state with cutoffs := state.cutoffs ++ [cutoff] }

end State

end Backchain.Search
