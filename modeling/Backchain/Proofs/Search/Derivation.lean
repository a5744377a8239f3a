import Backchain.Proofs.Search.Growth

/-!
# Answers have derivations

A derivation is a tree that shows how a goal comes to an answer. Its leaves are facts that the
goals unify with. An inner node is a rule whose head unifies with the goal, with one child for
each goal of the body: the child derives an answer to that goal as the bindings so far make it,
and the bindings are updated by that answer.

Every answer of a search has such a tree. A goal is entered once only, so the trees of the goals
of a body, which are searched for one after another, have no goal in common.
-/

namespace Backchain.Search

mutual
inductive Derivation (kb : KnowledgeBase) (matching : Matching) : Term → Substitution → Type
  | fact {goal : Term} {answer : Substitution} (fact : Term) :
      fact ∈ kb.facts → unify? matching goal fact = some answer →
      Derivation kb matching goal answer
  | rule {goal : Term} {answer : Substitution} (rule : Rule) (seed : Substitution) :
      rule ∈ kb.rules → unify? matching goal rule.head = some seed →
      BodyDerivation kb matching rule.body seed answer → Derivation kb matching goal answer
/-- From the bindings so far, the goals of a body lead to the answer. -/
inductive BodyDerivation (kb : KnowledgeBase) (matching : Matching) :
    List Term → Substitution → Substitution → Type
  | nil {sofar : Substitution} : BodyDerivation kb matching [] sofar sofar
  | cons {goal : Term} {goals : List Term} {sofar answer : Substitution} (found : Substitution) :
      Derivation kb matching (sofar.apply goal) found →
      BodyDerivation kb matching goals (sofar.update found) answer →
      BodyDerivation kb matching (goal :: goals) sofar answer
end

variable {kb : KnowledgeBase} {matching : Matching}

mutual
/-- The goals at the nodes, each with the depth that it lies at when the root lies at the given
one. -/
def Derivation.nodes {goal : Term} {answer : Substitution} :
    Derivation kb matching goal answer → Nat → List (Term × Nat)
  | .fact .., depth => [(goal, depth)]
  | .rule _ _ _ _ body, depth => (goal, depth) :: body.nodes (depth + 1)
def BodyDerivation.nodes {goals : List Term} {sofar answer : Substitution} :
    BodyDerivation kb matching goals sofar answer → Nat → List (Term × Nat)
  | .nil, _ => []
  | .cons _ child rest, depth => child.nodes depth ++ rest.nodes depth
end

-- ---------------------------------------------------------------------------
-- Nodes entered between two states
-- ---------------------------------------------------------------------------

/-- The goals of the nodes are distinct, none deeper than the bound, and all were entered between
the two states. -/
structure EnteredBetween (bound : Nat) (before after : State) (nodes : List (Term × Nat)) :
    Prop where
  nodup : (nodes.map Prod.fst).Nodup
  fresh : ∀ node ∈ nodes, node.1 ∉ before.entered
  entered : ∀ node ∈ nodes, node.1 ∈ after.entered
  shallow : ∀ node ∈ nodes, node.2 ≤ bound

namespace EnteredBetween

variable {bound : Nat} {a b c : State} {nodes others : List (Term × Nat)}

theorem nil (bound : Nat) (a b : State) : EnteredBetween bound a b [] :=
  ⟨.nil, by simp, by simp, by simp⟩

theorem widen {a' b' : State} (h : EnteredBetween bound a b nodes) (ha : a'.Extends a)
    (hb : b.Extends b') : EnteredBetween bound a' b' nodes :=
  ⟨h.nodup, fun node hn hm => h.fresh node hn (ha.mem hm),
    fun node hn => hb.mem (h.entered node hn), h.shallow⟩

theorem cons {goal : Term} {depth : Nat} (h : EnteredBetween bound (a.enter goal) b nodes)
    (hgoal : goal ∉ a.entered) (hdepth : depth ≤ bound) (hb : (a.enter goal).Extends b) :
    EnteredBetween bound a b ((goal, depth) :: nodes) := by
  have hin : goal ∈ (a.enter goal).entered := List.mem_append_right _ List.mem_cons_self
  constructor
  · refine List.nodup_cons.mpr ⟨?_, h.nodup⟩
    intro hm
    obtain ⟨node, hn, rfl⟩ := List.mem_map.mp hm
    exact h.fresh node hn hin
  · rintro node (_ | ⟨_, hn⟩)
    · exact hgoal
    · exact fun hm => h.fresh node hn ((State.Extends.enter a goal).mem hm)
  · rintro node (_ | ⟨_, hn⟩)
    · exact hb.mem hin
    · exact h.entered node hn
  · rintro node (_ | ⟨_, hn⟩)
    · exact hdepth
    · exact h.shallow node hn

/-- What is entered first is not fresh afterwards, so the two lists have no goal in common. -/
theorem append (h : EnteredBetween bound a b nodes) (h' : EnteredBetween bound b c others)
    (hab : a.Extends b) (hbc : b.Extends c) : EnteredBetween bound a c (nodes ++ others) := by
  have hdisjoint : ∀ goal ∈ nodes.map Prod.fst, goal ∉ others.map Prod.fst := by
    intro goal hm hm'
    obtain ⟨node, hn, rfl⟩ := List.mem_map.mp hm
    obtain ⟨other, ho, heq⟩ := List.mem_map.mp hm'
    exact h'.fresh other ho (heq ▸ h.entered node hn)
  have h₁ := h.widen (.refl a) hbc
  have h₂ := h'.widen hab (.refl c)
  constructor
  · rw [List.map_append, List.nodup_append]
    exact ⟨h.nodup, h'.nodup, fun goal hm other hm' heq => hdisjoint goal hm (heq ▸ hm')⟩
  · intro node hn
    exact (List.mem_append.mp hn).elim (h₁.fresh node) (h₂.fresh node)
  · intro node hn
    exact (List.mem_append.mp hn).elim (h₁.entered node) (h₂.entered node)
  · intro node hn
    exact (List.mem_append.mp hn).elim (h₁.shallow node) (h₂.shallow node)

end EnteredBetween

-- ---------------------------------------------------------------------------
-- Carving the tree of an answer out of a run
-- ---------------------------------------------------------------------------

/-- The strategy, which searches at a depth, only adds to the state, and has a derivation for each
of its answers whose nodes it has entered. -/
structure Justifies (kb : KnowledgeBase) (matching : Matching) (bound depth : Nat)
    (subsearch : Strategy) : Prop where
  grows : ∀ goal s, State.Extends s (subsearch goal s).state
  derives : ∀ goal s, ∀ answer ∈ (subsearch goal s).answers,
    ∃ tree : Derivation kb matching goal answer,
      EnteredBetween bound s (subsearch goal s).state (tree.nodes depth)

section
variable {bound depth : Nat} {subsearch : Strategy}

theorem proveBody_derives (hs : Justifies kb matching bound depth subsearch) {goals : List Term}
    {sofar : List Substitution} {state : State} {answer : Substitution}
    (ha : answer ∈ (proveBody subsearch goals sofar state).answers) :
    ∃ start ∈ sofar, ∃ body : BodyDerivation kb matching goals start answer,
      EnteredBetween bound state (proveBody subsearch goals sofar state).state
        (body.nodes depth) := by
  induction goals generalizing sofar state with
  | nil => exact ⟨answer, ha, .nil, .nil bound state state⟩
  | cons goal goals ih =>
    have hturn : ∀ sofar s, State.Extends s (extend subsearch goal sofar s).state :=
      fun sofar s => hs.grows (sofar.apply goal) s
    have hfirst := forEach_keeps .refl .trans hturn sofar state
    have hrest := proveBody_keeps .refl .trans hs.grows goals
      (forEach (extend subsearch goal) sofar state).answers
      (forEach (extend subsearch goal) sofar state).state
    obtain ⟨next, hnext, body, hbody⟩ := ih ha
    obtain ⟨start, hstart, mid, hmid, hfound, hend⟩ := mem_answers_forEach hturn hnext
    obtain ⟨found, hf, rfl⟩ := List.mem_map.mp hfound
    obtain ⟨child, hchild⟩ := hs.derives _ mid found hf
    have hnodes := (hchild.widen hmid hend).append hbody hfirst hrest
    exact ⟨start, hstart, .cons found child body, hnodes⟩

theorem tryRule_derives (hs : Justifies kb matching bound (depth + 1) subsearch) {goal : Term}
    {rule : Rule} (hr : rule ∈ kb.rules) {state : State} {answer : Substitution}
    (ha : answer ∈ (tryRule subsearch matching goal rule state).answers) :
    ∃ tree : Derivation kb matching goal answer, ∃ nodes,
      tree.nodes depth = (goal, depth) :: nodes ∧
      EnteredBetween bound state (tryRule subsearch matching goal rule state).state nodes := by
  unfold tryRule at ha ⊢
  cases hu : unify matching goal rule.head with
  | error mismatch => simp [hu] at ha
  | ok seed =>
    simp only [hu] at ha ⊢
    obtain ⟨start, hstart, body, hbody⟩ := proveBody_derives hs ha
    obtain rfl := List.mem_singleton.mp hstart
    exact ⟨.rule rule start hr (unify_eq_ok_iff.mp hu) body, _, rfl, hbody⟩

theorem tryAll_derives (hs : Justifies kb matching bound (depth + 1) subsearch) {goal : Term}
    {state : State} {answer : Substitution}
    (ha : answer ∈ (tryAll subsearch matching kb goal state).answers) :
    ∃ tree : Derivation kb matching goal answer, ∃ nodes,
      tree.nodes depth = (goal, depth) :: nodes ∧
      EnteredBetween bound state (tryAll subsearch matching kb goal state).state nodes := by
  simp only [tryAll, answers_tryFacts, state_tryFacts] at ha ⊢
  rcases List.mem_append.mp ha with ha | ha
  · obtain ⟨fact, hfact, hanswer⟩ := List.mem_filterMap.mp ha
    exact ⟨.fact fact hfact hanswer, [], rfl, .nil bound _ _⟩
  · have hturn := tryRule_keeps .refl .trans hs.grows matching goal
    obtain ⟨rule, hrule, mid, hmid, ha, hend⟩ := mem_answers_forEach hturn ha
    obtain ⟨tree, nodes, hnodes, hbetween⟩ := tryRule_derives hs hrule ha
    exact ⟨tree, nodes, hnodes, hbetween.widen hmid hend⟩

end

theorem proveWithin_justifies (kb : KnowledgeBase) (settings : Settings) (levels depth : Nat)
    (hl : levels ≤ settings.depthBound + 1 - depth) :
    Justifies kb settings.matching settings.depthBound depth
      (proveWithin kb settings levels depth) := by
  -- On the levels that are left: the sub-goals of a step are searched for one level deeper.
  induction levels generalizing depth with
  | zero => exact ⟨proveWithin_extends kb settings 0 depth, fun goal s answer ha => nomatch ha⟩
  | succ levels ih =>
    refine ⟨proveWithin_extends kb settings (levels + 1) depth, ?_⟩
    intro goal state answer ha
    have hs := ih (depth + 1) (by omega)
    simp only [proveWithin] at ha ⊢
    split at ha
    · cases ha
    · rename_i hgoal
      obtain ⟨tree, nodes, hnodes, hbetween⟩ := tryAll_derives hs ha
      refine ⟨tree, ?_⟩
      rw [if_neg hgoal, hnodes]
      exact hbetween.cons hgoal (by omega) (tryAll_keeps .refl .trans hs.grows _ _ _ _)

theorem prove_justifies (kb : KnowledgeBase) (settings : Settings) (depth : Nat) :
    Justifies kb settings.matching settings.depthBound depth
      (fun goal state => prove kb settings goal state depth) :=
  proveWithin_justifies kb settings _ depth (Nat.le_refl _)

/-- The nodes of the tree have distinct goals, which the search entered and which had not been
entered before it, and none lies deeper than the bound. -/
theorem exists_derivation_of_mem_answers (kb : KnowledgeBase) (settings : Settings) (goal : Term)
    (state : State) (depth : Nat) {answer : Substitution}
    (ha : answer ∈ (prove kb settings goal state depth).answers) :
    ∃ tree : Derivation kb settings.matching goal answer,
      ((tree.nodes depth).map Prod.fst).Nodup ∧
      ∀ node ∈ tree.nodes depth, node.1 ∉ state.entered ∧
        node.1 ∈ (prove kb settings goal state depth).state.entered ∧
        node.2 ≤ settings.depthBound := by
  obtain ⟨tree, h⟩ := (prove_justifies kb settings depth).derives goal state answer ha
  exact ⟨tree, h.nodup, fun node hn => ⟨h.fresh node hn, h.entered node hn, h.shallow node hn⟩⟩

def unary (symbol : String) (h : symbol ≠ "") (argument : Atom) : Term :=
  ⟨symbol, [argument], h, List.cons_ne_nil _ _⟩

def parent (elder child : Atom) : Term :=
  ⟨"parent", [elder, child], by decide, List.cons_ne_nil _ _⟩

def kinship : KnowledgeBase where
  facts := [parent (.const "ivo") (.const "ana"), parent (.const "ana") (.const "luka")]
  rules :=
    [{ head := ⟨"grandparent", [.var "X", .var "Y"], by decide, by decide⟩
       body := [parent (.var "X") (.var "Z"), parent (.var "Z") (.var "Y")] }]

def grandparent (elder grandchild : Atom) : Term :=
  ⟨"grandparent", [elder, grandchild], by decide, List.cons_ne_nil _ _⟩

theorem exists_derivation_of_grandparent :
    let goal : Term := ⟨"grandparent", [.const "ivo", .var "W"], by decide, by decide⟩
    let answer : Substitution :=
      ⟨[("X", .const "ivo"), ("W", .var "Y"), ("Z", .const "ana"), ("Y", .const "luka")]⟩
    answer ∈ (prove kinship {} goal .empty 0).answers ∧
      ∃ tree : Derivation kinship .sameSymbol goal answer,
        ((tree.nodes 0).map Prod.fst).Nodup ∧
        ∀ node ∈ tree.nodes 0, node.1 ∉ State.empty.entered ∧
          node.1 ∈ (prove kinship {} goal .empty 0).state.entered ∧ node.2 ≤ 10 := by
  intro goal answer
  have ha : answer ∈ (prove kinship {} goal .empty 0).answers := by decide
  exact ⟨ha, exists_derivation_of_mem_answers kinship {} goal .empty 0 ha⟩

end Backchain.Search
