import Backchain.Proofs.Grammar.Bindings
import Backchain.Proofs.Names.Pairing
import Backchain.Proofs.Reasoner.History
import Backchain.Proofs.Search.Provenance

/-!
# Answers to texts

What a reader makes of a text is textual. A reasoner that was told nothing but what was read holds
textual terms only, and a search of it for a goal that was read comes upon no atom that is not of
these terms or of the goal. So all names and values in its answers are tokens, and what is printed
for an answer tells the answer.
-/

namespace Backchain

-- ---------------------------------------------------------------------------
-- The terms of a clause
-- ---------------------------------------------------------------------------

def Clause.terms : Clause → List Term
  | .fact t => [t]
  | .rule r => r.terms

theorem Clause.Textual.of_mem_terms {clause : Clause} (h : clause.Textual) {t : Term}
    (ht : t ∈ clause.terms) : t.Textual := by
  cases clause with
  | fact f => exact List.mem_singleton.1 ht ▸ h
  | rule r =>
    obtain ⟨hhead, -, hbody⟩ := h
    rcases List.mem_cons.1 ht with rfl | ht
    · exact hhead
    · exact hbody t ht

theorem KnowledgeBase.exists_clause_of_mem_terms {kb : KnowledgeBase} {t : Term}
    (ht : t ∈ kb.terms) : ∃ clause ∈ kb.clauses, t ∈ clause.terms := by
  rcases List.mem_append.1 ht with hf | hr
  · exact ⟨.fact t, List.mem_append_left _ (List.mem_map_of_mem hf), List.mem_singleton_self t⟩
  · obtain ⟨r, hr, ht⟩ := List.mem_flatMap.1 hr
    exact ⟨.rule r, List.mem_append_right _ (List.mem_map_of_mem hr), ht⟩

theorem Substitution.Over.textual {kb : KnowledgeBase} {goal : Term} {s : Substitution}
    (h : s.Over (kb.atoms goal)) (hkb : ∀ t ∈ kb.terms, t.Textual) (hgoal : goal.Textual) :
    s.Textual := by
  have hatoms : ∀ a ∈ kb.atoms goal, a.Textual := by
    intro a ha
    obtain ⟨t, ht, ha⟩ := List.mem_flatMap.1 (List.mem_toFinset.1 ha)
    exact (List.forall_mem_cons.2 ⟨hgoal, hkb⟩ t ht).arguments a ha
  exact fun pair hm => ⟨hatoms _ (h pair hm).1, hatoms _ (h pair hm).2⟩

namespace Reasoner

-- ---------------------------------------------------------------------------
-- Reasoners that were told what was read
-- ---------------------------------------------------------------------------

/-- A clause that is told as a value has terms that were read, each from a text. -/
def Operation.FromTexts : Operation → Prop
  | .fact t => ∃ text, Term.read text = .ok t
  | .rule r => ∀ t ∈ r.terms, ∃ text, Term.read text = .ok t
  | .factText _ | .ruleText _ _ | .clauseText _ | .query _ => True

def FromTexts (reasoner : Reasoner) : Prop :=
  ∃ settings operations, reasoner = after { settings } operations ∧
    ∀ operation ∈ operations, operation.FromTexts

theorem Operation.FromTexts.textual_of_clause? {operation : Operation} (h : operation.FromTexts)
    {clause : Clause} (hclause : operation.clause? = some clause) {t : Term}
    (ht : t ∈ clause.terms) : t.Textual := by
  cases operation with
  | fact f =>
    cases hclause
    obtain ⟨text, hread⟩ := h
    exact List.mem_singleton.1 ht ▸ Term.textual_of_read hread
  | rule r =>
    cases hclause
    obtain ⟨text, hread⟩ := h t ht
    exact Term.textual_of_read hread
  | factText text =>
    obtain ⟨f, hf, rfl⟩ := Option.map_eq_some_iff.1 hclause
    exact List.mem_singleton.1 ht ▸ Term.textual_of_read (toOption_eq_some_iff.1 hf)
  | ruleText head goals =>
    simp only [clause?, Option.bind_eq_bind, Option.bind_eq_some_iff,
      toOption_eq_some_iff, mapM_eq_ok_iff] at hclause
    obtain ⟨u, hu, body, hbody, heq⟩ := hclause
    cases heq
    -- The head and the goals are read alike.
    have hread : List.Forall₂ (fun t text => Term.read text = .ok t) (u :: body) (head :: goals) :=
      .cons hu hbody
    obtain ⟨text, -, htext⟩ := exists_of_mem_of_forall₂ hread ht
    exact Term.textual_of_read htext
  | clauseText text => exact (textual_of_clauseText hclause).of_mem_terms ht
  | query text => cases hclause

theorem FromTexts.textual {reasoner : Reasoner} (h : reasoner.FromTexts) {t : Term}
    (ht : t ∈ reasoner.knowledge.terms) : t.Textual := by
  obtain ⟨settings, operations, rfl, hoperations⟩ := h
  obtain ⟨clause, hclause, hterm⟩ := KnowledgeBase.exists_clause_of_mem_terms ht
  obtain ⟨operation, hoperation, hsome⟩ := exists_operation_of_mem_clauses hclause
  exact (hoperations operation hoperation).textual_of_clause? hsome hterm

-- ---------------------------------------------------------------------------
-- Goals that were read
-- ---------------------------------------------------------------------------

/-- A search of the reasoner for a goal that was read from a text found the substitution. It may be
a question of its own, or a search that is part of another, at any depth and from any state. -/
inductive AnswersText (reasoner : Reasoner) (answer : Substitution) : Prop where
  | asked {text found} (h : reasoner.askText text = .ok found) (hm : answer ∈ found.value.answers)
  | within {text goal state depth} (h : Term.read text = .ok goal)
      (hm : answer ∈ (reasoner.askWithin goal state depth).answers)

theorem FromTexts.textual_of_mem_answers {reasoner : Reasoner} (h : reasoner.FromTexts)
    {text : String} {goal : Term} (hread : Term.read text = .ok goal) {state : Search.State}
    {depth : Nat} {answer : Substitution}
    (hm : answer ∈ (reasoner.askWithin goal state depth).answers) : answer.Textual :=
  (Search.over_of_mem_answers hm).textual (fun _ => h.textual) (Term.textual_of_read hread)

theorem AnswersText.textual {reasoner : Reasoner} {answer : Substitution}
    (h : reasoner.AnswersText answer) (hreasoner : reasoner.FromTexts) : answer.Textual := by
  cases h with
  | asked h hm =>
    obtain ⟨goal, hread, heq⟩ := bind_eq_ok_iff.1 h
    cases heq
    exact hreasoner.textual_of_mem_answers hread hm
  | within hread hm => exact hreasoner.textual_of_mem_answers hread hm

/-- Where all clauses and goals were read from texts, two answers have the same print exactly if
they are made up of the same names and atoms in the same order. They may be answers to different
goals, and even of different reasoners. -/
theorem render_answers_eq_iff {first second : Reasoner} (hfirst : first.FromTexts)
    (hsecond : second.FromTexts) {s t : Substitution} (hs : first.AnswersText s)
    (ht : second.AnswersText t) : s.render = t.render ↔ s.bindings = t.bindings :=
  (hs.textual hfirst).render_eq_iff (ht.textual hsecond)

/-- The prints differ in nothing but where the blank stands: once before a colon and once after it.
The first answer is that of a rule, and the second is found within another search. -/
theorem render_answers_ne_of_colons :
    let seen (a : Atom) : Term := ⟨"seen", [a], by simp, by simp⟩
    let operations : List Operation :=
      [.clauseText "seen( :a\x7d ).", .ruleText "met(X)" ["seen(X)"],
        .fact (seen (.const "a\x7d"))]
    let reasoner := after {} operations
    let s : Substitution := ⟨[("X", .const ":a\x7d")]⟩
    let t : Substitution := ⟨[("X:", .const "a\x7d")]⟩
    reasoner.FromTexts ∧ reasoner.AnswersText s ∧ reasoner.AnswersText t ∧ s.render ≠ t.render := by
  intro seen operations reasoner s t
  have hreasoner : reasoner.FromTexts := by
    refine ⟨{}, operations, rfl, ?_⟩
    simp only [operations, List.forall_mem_cons, Operation.FromTexts]
    exact ⟨trivial, trivial, ⟨"seen(a\x7d)", rfl⟩, nofun⟩
  have hmet : reasoner.askText "met(X)" =
      .ok (reasoner.ask ⟨"met", [.var "X"], by simp, by simp⟩) := by rfl
  have hseen : Term.read "seen(X:)" = .ok (seen (.var "X:")) := by rfl
  have hwithin : t ∈ (reasoner.askWithin (seen (.var "X:")) ⟨[seen (.var "X")], []⟩ 3).answers := by
    decide +kernel
  have hs : reasoner.AnswersText s := .asked hmet (by decide +kernel)
  have ht : reasoner.AnswersText t := .within hseen hwithin
  refine ⟨hreasoner, hs, ht, fun h => ?_⟩
  exact absurd ((render_answers_eq_iff hreasoner hreasoner hs ht).1 h) (by decide)

end Reasoner

end Backchain
