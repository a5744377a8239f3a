import Backchain.Log
import Backchain.Search.State
import Backchain.Settings

/-!
# Backward chaining

A goal is answered by the facts that it unifies with and by the rules whose head it unifies with,
in the order of the knowledge base, facts first. The body of a rule is proved goal by goal, from
left to right: every answer so far is applied to the next goal, and is updated by every answer to
that goal. One state goes through the whole search: a goal that was entered before has no answers
when it comes up again, and neither has one that lies deeper than the bound.
-/

namespace Backchain.Search

/-- What a search for a goal gives: the answers, the state it leaves and what it logged. -/
structure Outcome where
  answers : List Substitution
  state : State
  log : List Event

/-- A way to search for a goal. Each step of a search is given one for its sub-goals. -/
abbrev Strategy := Term → State → Outcome

-- ---------------------------------------------------------------------------
-- One step
-- ---------------------------------------------------------------------------

/-- Searches for each item in turn, each from the state that the one before left. The answers are
those of all items, in order. -/
def forEach (search : α → State → Outcome) : List α → State → Outcome
  | [], state => ⟨[], state, []⟩
  | item :: items, state =>
    let first := search item state
    let rest := forEach search items first.state
    ⟨first.answers ++ rest.answers, rest.state, first.log ++ rest.log⟩

/-- Extends one answer so far by every answer to the goal that it is applied to. -/
def extend (subsearch : Strategy) (goal : Term) (sofar : Substitution) (state : State) : Outcome :=
  let found := subsearch (sofar.apply goal) state
  { found with answers := found.answers.map sofar.update }

/-- Proves the goals of a body from left to right, each for all answers so far. -/
def proveBody (subsearch : Strategy) : List Term → List Substitution → State → Outcome
  | [], sofar, state => ⟨sofar, state, []⟩
  | goal :: goals, sofar, state =>
    let first := forEach (extend subsearch goal) sofar state
    let rest := proveBody subsearch goals first.answers first.state
    { rest with log := first.log ++ rest.log }

/-- What is logged when a goal does not unify with a candidate: a clash is, and nothing else. -/
def mismatchLog (goal candidate : Term) : Mismatch → List Event
  | .clash left right => [.clash goal candidate left right]
  | .arity | .symbol => []

def tryFact (matching : Matching) (goal fact : Term) (state : State) : Outcome :=
  match unify matching goal fact with
  | .error mismatch => ⟨[], state, mismatchLog goal fact mismatch⟩
  | .ok answer => ⟨[answer], state, []⟩

def tryRule (subsearch : Strategy) (matching : Matching) (goal : Term) (rule : Rule)
    (state : State) : Outcome :=
  match unify matching goal rule.head with
  | .error mismatch => ⟨[], state, mismatchLog goal rule.head mismatch⟩
  | .ok seed =>
    let proved := proveBody subsearch rule.body [seed] state
    { proved with log := .matched goal rule seed :: proved.log }

def tryAll (subsearch : Strategy) (matching : Matching) (kb : KnowledgeBase) (goal : Term)
    (state : State) : Outcome :=
  let facts := forEach (tryFact matching goal) kb.facts state
  let rules := forEach (tryRule subsearch matching goal) kb.rules facts.state
  ⟨facts.answers ++ rules.answers, rules.state, facts.log ++ rules.log⟩

-- ---------------------------------------------------------------------------
-- All steps
-- ---------------------------------------------------------------------------

/-- Searches for a goal at a depth from which `levels` levels, its own included, are within the
bound. -/
def proveWithin (kb : KnowledgeBase) (settings : Settings) :
    (levels depth : Nat) → Term → State → Outcome
  | 0, depth, goal, state =>
    let bound := settings.depthBound
    ⟨[], state.cutOff ⟨goal, depth, bound⟩, [.cutOff goal bound]⟩
  | levels + 1, depth, goal, state =>
    if goal ∈ state.entered then ⟨[], state, [.reentered goal]⟩
    else
      let subsearch := proveWithin kb settings levels (depth + 1)
      tryAll subsearch settings.matching kb goal (state.enter goal)

/-- Searches for a goal that has been reached at a depth, from a state. -/
def prove (kb : KnowledgeBase) (settings : Settings) (goal : Term) (state : State) (depth : Nat) :
    Outcome :=
  proveWithin kb settings (settings.depthBound + 1 - depth) depth goal state

structure Findings where
  answers : List Substitution
  cutoffs : List Cutoff
deriving DecidableEq

def Findings.satisfied (findings : Findings) : Bool := !findings.answers.isEmpty

def Findings.cutShort (findings : Findings) : Bool := !findings.cutoffs.isEmpty

def solve (kb : KnowledgeBase) (settings : Settings) (goal : Term) : Logged Findings :=
  let outcome := prove kb settings goal .empty 0
  ⟨⟨outcome.answers, outcome.state.cutoffs⟩, outcome.log⟩

-- ---------------------------------------------------------------------------
-- Laws
-- ---------------------------------------------------------------------------

theorem forEach_append (search : α → State → Outcome) (items others : List α) (state : State) :
    forEach search (items ++ others) state =
      let first := forEach search items state
      let rest := forEach search others first.state
      ⟨first.answers ++ rest.answers, rest.state, first.log ++ rest.log⟩ := by
  induction items generalizing state with
  | nil => rfl
  | cons item items ih => simp [forEach, ih]

theorem exists_turn_of_mem_answers {search : α → State → Outcome} {items : List α} {state : State}
    {answer : Substitution} (ha : answer ∈ (forEach search items state).answers) :
    ∃ earlier item later, items = earlier ++ item :: later ∧
      answer ∈ (search item (forEach search earlier state).state).answers := by
  induction items generalizing state with
  | nil => cases ha
  | cons item items ih =>
    rcases List.mem_append.mp ha with ha | ha
    · exact ⟨[], item, items, rfl, ha⟩
    · obtain ⟨earlier, other, later, rfl, hturn⟩ := ih ha
      exact ⟨item :: earlier, other, later, rfl, hturn⟩

theorem proveBody_append (subsearch : Strategy) (goals others : List Term)
    (sofar : List Substitution) (state : State) :
    proveBody subsearch (goals ++ others) sofar state =
      let first := proveBody subsearch goals sofar state
      let rest := proveBody subsearch others first.answers first.state
      { rest with log := first.log ++ rest.log } := by
  induction goals generalizing sofar state with
  | nil => rfl
  | cons goal goals ih => simp [proveBody, ih]

theorem answers_proveBody_nil (subsearch : Strategy) (goals : List Term) (state : State) :
    (proveBody subsearch goals [] state).answers = [] := by
  induction goals generalizing state with
  | nil => rfl
  | cons goal goals ih => exact ih _

theorem mem_answers_tryRule {subsearch : Strategy} {matching : Matching} {goal : Term} {rule : Rule}
    {state : State} {answer : Substitution} :
    answer ∈ (tryRule subsearch matching goal rule state).answers ↔
      ∃ seed, unify? matching goal rule.head = some seed ∧
        answer ∈ (proveBody subsearch rule.body [seed] state).answers := by
  cases h : unify matching goal rule.head <;> simp [tryRule, unify?, h, Except.toOption]

theorem answers_tryFacts (matching : Matching) (goal : Term) (facts : List Term) (state : State) :
    (forEach (tryFact matching goal) facts state).answers =
      facts.filterMap (unify? matching goal) := by
  induction facts generalizing state with
  | nil => rfl
  | cons fact facts ih =>
    cases h : unify matching goal fact <;>
      simp [forEach, tryFact, unify?, h, ih, Except.toOption]

theorem state_tryFacts (matching : Matching) (goal : Term) (facts : List Term) (state : State) :
    (forEach (tryFact matching goal) facts state).state = state := by
  induction facts generalizing state with
  | nil => rfl
  | cons fact facts ih =>
    cases h : unify matching goal fact <;> simp [forEach, tryFact, h, ih]

theorem Findings.satisfied_iff {findings : Findings} :
    findings.satisfied = true ↔ findings.answers ≠ [] := by
  simp [Findings.satisfied]

theorem prove_of_bound_lt {settings : Settings} {depth : Nat} (h : settings.depthBound < depth)
    (kb : KnowledgeBase) (goal : Term) (state : State) :
    prove kb settings goal state depth =
      ⟨[], state.cutOff ⟨goal, depth, settings.depthBound⟩,
        [.cutOff goal settings.depthBound]⟩ := by
  have hl : settings.depthBound + 1 - depth = 0 := by omega
  rw [prove, hl]
  rfl

/-- Within the bound, a goal that is new is tried with all clauses, its sub-goals being searched
for one level deeper. -/
theorem prove_of_le_bound {settings : Settings} {depth : Nat} (h : depth ≤ settings.depthBound)
    (kb : KnowledgeBase) (goal : Term) (state : State) :
    prove kb settings goal state depth =
      if goal ∈ state.entered then ⟨[], state, [.reentered goal]⟩
      else tryAll (fun goal state => prove kb settings goal state (depth + 1)) settings.matching
        kb goal (state.enter goal) := by
  have hl : settings.depthBound + 1 - depth = settings.depthBound - depth + 1 := by omega
  have hs : settings.depthBound + 1 - (depth + 1) = settings.depthBound - depth := by omega
  simp only [prove, hl, hs]
  rfl

end Backchain.Search
