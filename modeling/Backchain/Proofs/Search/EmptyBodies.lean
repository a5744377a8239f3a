import Backchain.Proofs.Search.Lockstep

/-!
# Facts as rules without a body

Once its head unifies with a goal, a rule without a body has nothing left to prove: the unifier is
its one answer, and no sub-goal is entered. So it makes no difference to a search whether a fact is
stored as a fact or as such a rule, if the latter come before all other rules. Only the log tells
the two apart, as the match of a rule is logged and that of a fact is not.
-/

namespace Backchain

def Rule.ofFact (fact : Term) : Rule := ⟨fact, []⟩

def KnowledgeBase.factsAsRules (kb : KnowledgeBase) : KnowledgeBase where
  facts := []
  rules := kb.facts.map Rule.ofFact ++ kb.rules

namespace Search

theorem forEach_map {α β : Type} (search : α → State → Outcome) (f : β → α) (items : List β)
    (state : State) :
    forEach search (items.map f) state = forEach (fun item => search (f item)) items state := by
  induction items generalizing state with
  | nil => rfl
  | cons item items ih => simp only [List.map_cons, forEach, ih]

theorem tryFact_agree_tryRule (sub : Strategy) (matching : Matching) (goal fact : Term) :
    AgreeThroughout (tryFact matching goal fact) (tryRule sub matching goal (.ofFact fact)) := by
  rintro s _ rfl -
  cases hu : unify matching goal fact with
  | error mismatch => simp [tryFact, tryRule, Rule.ofFact, hu]
  | ok answer => simp [tryFact, tryRule, Rule.ofFact, proveBody, hu]

theorem tryAll_factsAsRules (kb : KnowledgeBase) {sub sub' : Strategy}
    (h : ∀ goal, AgreeThroughout (sub goal) (sub' goal)) (matching : Matching) (goal : Term) :
    AgreeThroughout (tryAll sub matching kb goal) (tryAll sub' matching kb.factsAsRules goal) := by
  have hfacts : AgreeThroughout (forEach (tryFact matching goal) kb.facts)
      (forEach (fun fact => tryRule sub' matching goal (.ofFact fact)) kb.facts) :=
    forEach_agree fun fact _ => tryFact_agree_tryRule sub' matching goal fact
  have hrules : AgreeThroughout (forEach (tryRule sub matching goal) kb.rules)
      (forEach (tryRule sub' matching goal) kb.rules) :=
    forEach_agree fun rule _ => tryRule_agree (fun _ _ _ => h _) matching goal
  rintro s _ rfl -
  obtain ⟨ha, hs⟩ := hfacts.apply s
  simp only [tryAll, KnowledgeBase.factsAsRules, forEach, forEach_append, forEach_map,
    List.nil_append, ← ha, ← hs]
  obtain ⟨ha', hs'⟩ := hrules.apply (forEach (tryFact matching goal) kb.facts s).state
  exact ⟨congrArg _ ha', hs'⟩

theorem proveWithin_factsAsRules (kb : KnowledgeBase) (settings : Settings) (levels depth : Nat)
    (goal : Term) :
    AgreeThroughout (proveWithin kb settings levels depth goal)
      (proveWithin kb.factsAsRules settings levels depth goal) := by
  -- On the levels that are left. The two steps agree as soon as their sub-goals do.
  induction levels generalizing depth goal with
  | zero =>
    rintro s _ rfl -
    exact ⟨rfl, rfl⟩
  | succ levels ih =>
    rintro s _ rfl -
    simp only [proveWithin]
    split
    · exact ⟨rfl, rfl⟩
    · exact (tryAll_factsAsRules kb (ih (depth + 1)) settings.matching goal).apply (s.enter goal)

/-- The answers come in the same order, and the state is left the same. -/
theorem prove_factsAsRules (kb : KnowledgeBase) (settings : Settings) (goal : Term) (state : State)
    (depth : Nat) :
    (prove kb.factsAsRules settings goal state depth).answers =
        (prove kb settings goal state depth).answers ∧
      (prove kb.factsAsRules settings goal state depth).state =
        (prove kb settings goal state depth).state := by
  obtain ⟨hanswers, hstate⟩ :=
    (proveWithin_factsAsRules kb settings (settings.depthBound + 1 - depth) depth goal).apply state
  exact ⟨hanswers.symm, hstate.symm⟩

end Search

end Backchain
