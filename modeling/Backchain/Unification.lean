import Backchain.Substitution

/-!
# Unification of flat terms

One pass over the two argument lists, left to right. Equal atoms match. A variable of the goal is
bound to the atom opposite; failing that, a variable of the candidate is bound to the atom of the
goal. A later binding of a name replaces an earlier one and is not compared with it, so `p(X, X)`
unifies with `p(a, b)` and binds `X` to `b`.
-/

namespace Backchain

inductive Matching where
  | sameSymbol
  | anySymbol
deriving DecidableEq

inductive Mismatch where
  | arity
  | symbol
  /-- Two different constants stand opposite each other. -/
  | clash (left right : Atom)
deriving DecidableEq

/-- Unifies the arguments from here on, given the bindings made so far. -/
def unifyArguments : List Atom → List Atom → Substitution → Except Mismatch Substitution
  | g :: goal, c :: candidate, made =>
    if g = c then unifyArguments goal candidate made
    else match g, c with
      | .var x, _ => unifyArguments goal candidate (made.bind x c)
      | .const _, .var y => unifyArguments goal candidate (made.bind y g)
      | .const _, .const _ => .error (.clash g c)
  | _, _, made => .ok made

def unify (matching : Matching) (goal candidate : Term) : Except Mismatch Substitution :=
  if goal.arity ≠ candidate.arity then .error .arity
  else if matching = .sameSymbol ∧ goal.symbol ≠ candidate.symbol then .error .symbol
  else unifyArguments goal.arguments candidate.arguments .empty

def unify? (matching : Matching) (goal candidate : Term) : Option Substitution :=
  (unify matching goal candidate).toOption

-- ---------------------------------------------------------------------------
-- Laws
-- ---------------------------------------------------------------------------

theorem unify_eq_ok_iff {matching : Matching} {goal candidate : Term} {s : Substitution} :
    unify matching goal candidate = .ok s ↔ unify? matching goal candidate = some s := by
  unfold unify?
  cases unify matching goal candidate <;> simp [Except.toOption]

@[simp]
theorem unifyArguments_self (atoms : List Atom) (made : Substitution) :
    unifyArguments atoms atoms made = .ok made := by
  induction atoms with
  | nil => rfl
  | cons a atoms ih => simp [unifyArguments, ih]

@[simp]
theorem unify_self (matching : Matching) (t : Term) :
    unify matching t t = .ok .empty := by
  simp [unify]

end Backchain
