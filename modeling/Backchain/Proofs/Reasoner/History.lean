import Backchain.Proofs.Grammar.Printing

/-!
# Histories of a reasoner

A reasoner is told clauses, as values or as texts, and is asked goals, in any order. Whatever its
history is, it holds the clauses that were told, in the order in which they were: a text that cannot
be read adds nothing, and neither does a question. So a fact that came from a text is textual, and
its own print asks for it.
-/

namespace Backchain

-- ---------------------------------------------------------------------------
-- Many clauses
-- ---------------------------------------------------------------------------

def Clause.fact? : Clause → Option Term
  | .fact t => some t
  | .rule _ => none

def Clause.rule? : Clause → Option Rule
  | .fact _ => none
  | .rule r => some r

@[simp]
theorem Clause.fact?_eq_some_iff {clause : Clause} {t : Term} :
    clause.fact? = some t ↔ clause = .fact t := by
  cases clause <;> simp [fact?]

@[simp]
theorem Clause.rule?_eq_some_iff {clause : Clause} {r : Rule} :
    clause.rule? = some r ↔ clause = .rule r := by
  cases clause <;> simp [rule?]

namespace KnowledgeBase

def addAll (kb : KnowledgeBase) (clauses : List Clause) : KnowledgeBase := clauses.foldl add kb

def clauses (kb : KnowledgeBase) : List Clause := kb.facts.map .fact ++ kb.rules.map .rule

theorem addAll_append (kb : KnowledgeBase) (clauses others : List Clause) :
    kb.addAll (clauses ++ others) = (kb.addAll clauses).addAll others :=
  List.foldl_append

theorem addAll_eq (kb : KnowledgeBase) (clauses : List Clause) :
    kb.addAll clauses =
      ⟨kb.facts ++ clauses.filterMap Clause.fact?, kb.rules ++ clauses.filterMap Clause.rule?⟩ := by
  induction clauses generalizing kb with
  | nil => simp [addAll]
  | cons clause clauses ih =>
    have hstep : kb.addAll (clause :: clauses) = (kb.add clause).addAll clauses := rfl
    rw [hstep, ih]
    cases clause <;> simp [add, List.filterMap_cons, Clause.fact?, Clause.rule?]

theorem mem_clauses_addAll {clauses : List Clause} {clause : Clause} :
    clause ∈ (({} : KnowledgeBase).addAll clauses).clauses ↔ clause ∈ clauses := by
  rw [addAll_eq]
  cases clause <;> simp [KnowledgeBase.clauses]

theorem addAll_clauses (kb : KnowledgeBase) : ({} : KnowledgeBase).addAll kb.clauses = kb := by
  rw [addAll_eq]
  simp [clauses, List.filterMap_append, List.filterMap_map, Function.comp_def, Clause.fact?,
    Clause.rule?]

end KnowledgeBase

namespace Reasoner

-- ---------------------------------------------------------------------------
-- Operations
-- ---------------------------------------------------------------------------

inductive Operation where
  | fact (t : Term)
  | rule (r : Rule)
  | factText (text : String)
  | ruleText (head : String) (goals : List String)
  | clauseText (text : String)
  | query (text : String)
deriving DecidableEq

def perform (reasoner : Reasoner) : Operation → Except Error Reasoner
  | .fact t => .ok (reasoner.tell (.fact t)).value
  | .rule r => .ok (reasoner.tell (.rule r)).value
  | .factText text => return (← reasoner.tellFact text).value
  | .ruleText head goals => return (← reasoner.tellRule head goals).value
  | .clauseText text => return (← reasoner.tellText text).2.value
  | .query text => do
    let _ ← reasoner.askText text
    return reasoner

def attempt (reasoner : Reasoner) (operation : Operation) : Reasoner :=
  match reasoner.perform operation with
  | .ok changed => changed
  | .error _ => reasoner

def after (reasoner : Reasoner) (operations : List Operation) : Reasoner :=
  operations.foldl attempt reasoner

def Operation.clause? : Operation → Option Clause
  | .fact t => some (.fact t)
  | .rule r => some (.rule r)
  | .factText text => (Term.read text).toOption.map .fact
  | .ruleText head goals => do
    let head ← (Term.read head).toOption
    let body ← (goals.mapM Term.read).toOption
    return .rule ⟨head, body⟩
  | .clauseText text => (Clause.read text).toOption
  | .query _ => none

theorem attempt_eq (reasoner : Reasoner) (operation : Operation) :
    reasoner.attempt operation =
      { reasoner with knowledge := reasoner.knowledge.addAll operation.clause?.toList } := by
  cases operation with
  | fact t => rfl
  | rule r => rfl
  | factText text =>
    cases h : Term.read text <;>
      (simp only [attempt, perform, tellFact, Operation.clause?, h]; rfl)
  | ruleText head goals =>
    cases hh : Term.read head with
    | error e =>
      simp only [attempt, perform, tellRule, Operation.clause?, hh]
      rfl
    | ok t =>
      cases hb : goals.mapM Term.read <;>
        (simp only [attempt, perform, tellRule, Operation.clause?, hh, hb]; rfl)
  | clauseText text =>
    cases h : Clause.read text <;>
      (simp only [attempt, perform, tellText, Operation.clause?, h]; rfl)
  | query text =>
    cases h : Term.read text <;> (simp only [attempt, perform, askText, h]; rfl)

theorem after_append (reasoner : Reasoner) (operations others : List Operation) :
    reasoner.after (operations ++ others) = (reasoner.after operations).after others :=
  List.foldl_append

theorem after_eq (reasoner : Reasoner) (operations : List Operation) :
    reasoner.after operations =
      { reasoner with
        knowledge := reasoner.knowledge.addAll (operations.filterMap Operation.clause?) } := by
  induction operations generalizing reasoner with
  | nil => rfl
  | cons operation operations ih =>
    have hstep : reasoner.after (operation :: operations) =
        (reasoner.attempt operation).after operations := rfl
    rw [hstep, ih, attempt_eq]
    cases h : operation.clause? <;> simp [h, ← KnowledgeBase.addAll_append]

-- ---------------------------------------------------------------------------
-- Telling many clauses
-- ---------------------------------------------------------------------------

def tellAll (reasoner : Reasoner) (clauses : List Clause) : Reasoner :=
  { reasoner with knowledge := reasoner.knowledge.addAll clauses }

theorem tellAll_nil (reasoner : Reasoner) : reasoner.tellAll [] = reasoner := rfl

theorem tellAll_cons (reasoner : Reasoner) (clause : Clause) (clauses : List Clause) :
    reasoner.tellAll (clause :: clauses) = (reasoner.tell clause).value.tellAll clauses := rfl

theorem tellAll_append (reasoner : Reasoner) (clauses others : List Clause) :
    reasoner.tellAll (clauses ++ others) = (reasoner.tellAll clauses).tellAll others := by
  simp only [tellAll, KnowledgeBase.addAll_append]

/-- The later reasoner is the earlier one after it was told clauses by texts. Of these texts some
may be no clauses. -/
def ToldByTexts (earlier later : Reasoner) : Prop :=
  ∃ texts : List String, later = earlier.after (texts.map .clauseText)

theorem ToldByTexts.refl (reasoner : Reasoner) : reasoner.ToldByTexts reasoner := ⟨[], rfl⟩

theorem ToldByTexts.trans {first second third : Reasoner} (h : first.ToldByTexts second)
    (h' : second.ToldByTexts third) : first.ToldByTexts third := by
  obtain ⟨texts, rfl⟩ := h
  obtain ⟨others, rfl⟩ := h'
  exact ⟨texts ++ others, by rw [List.map_append, after_append]⟩

theorem toldByTexts_of_tellText {reasoner : Reasoner} {text : String} {clause : Clause}
    {told : Logged Reasoner} (h : reasoner.tellText text = .ok (clause, told)) :
    reasoner.ToldByTexts told.value := by
  refine ⟨[text], ?_⟩
  rw [List.map_singleton, after, List.foldl_cons, attempt, perform, h]
  rfl

-- ---------------------------------------------------------------------------
-- What came from texts
-- ---------------------------------------------------------------------------

theorem exists_operation_of_mem_clauses {settings : Settings} {operations : List Operation}
    {clause : Clause} (h : clause ∈ (after { settings } operations).knowledge.clauses) :
    ∃ operation ∈ operations, operation.clause? = some clause := by
  rw [after_eq, KnowledgeBase.mem_clauses_addAll] at h
  exact List.mem_filterMap.1 h

theorem textual_of_clauseText {text : String} {clause : Clause}
    (h : (Operation.clauseText text).clause? = some clause) : clause.Textual :=
  Clause.textual_of_read (toOption_eq_some_iff.1 h)

theorem ToldByTexts.textual_of_mem_clauses {settings : Settings} {reasoner : Reasoner}
    (h : ToldByTexts { settings } reasoner) {clause : Clause}
    (hm : clause ∈ reasoner.knowledge.clauses) : clause.Textual := by
  obtain ⟨texts, rfl⟩ := h
  obtain ⟨operation, hoperation, hclause⟩ := exists_operation_of_mem_clauses hm
  obtain ⟨text, -, rfl⟩ := List.mem_map.1 hoperation
  exact textual_of_clauseText hclause

theorem textual_of_clause?_fact {operation : Operation} {f : Term}
    (h : operation.clause? = some (.fact f)) (hvalue : operation ≠ .fact f) : f.Textual := by
  cases operation with
  | fact t =>
    cases h
    exact absurd rfl hvalue
  | rule r => cases h
  | factText text =>
    obtain ⟨t, ht, heq⟩ := Option.map_eq_some_iff.1 h
    cases heq
    exact Term.textual_of_read (toOption_eq_some_iff.1 ht)
  | ruleText head goals =>
    simp only [Operation.clause?, Option.bind_eq_bind, Option.bind_eq_some_iff] at h
    obtain ⟨t, -, body, -, heq⟩ := h
    cases heq
  | clauseText text => exact textual_of_clauseText h
  | query text => cases h

-- ---------------------------------------------------------------------------
-- Stored facts
-- ---------------------------------------------------------------------------

/-- A stored fact is asked for at no depth, so no bound keeps the search from it. -/
theorem empty_mem_answers_ask {reasoner : Reasoner} {f : Term} (h : f ∈ reasoner.facts) :
    .empty ∈ (reasoner.ask f).value.answers := by
  have hprove := Search.prove_of_le_bound (Nat.zero_le reasoner.settings.depthBound)
    reasoner.knowledge f .empty
  rw [if_neg (show f ∉ Search.State.empty.entered from List.not_mem_nil)] at hprove
  have hself : unify? reasoner.settings.matching f f = some .empty :=
    unify_eq_ok_iff.1 (unify_self _ f)
  simp only [ask, Search.solve, hprove, Search.tryAll, Search.answers_tryFacts]
  exact List.mem_append_left _ (List.mem_filterMap.2 ⟨f, h, hself⟩)

/-- However a reasoner was told its facts by texts, and whatever rules it was told and settings it
has, asking for the print of a stored fact gives the empty substitution among the answers. -/
theorem stored_fact_answers_its_print (settings : Settings) (operations : List Operation)
    (htext : ∀ t, .fact t ∉ operations) :
    let reasoner := after { settings } operations
    ∀ f ∈ reasoner.facts,
      (∃ found, reasoner.askText f.render = .ok found ∧ .empty ∈ found.value.answers) ∧
        ∃ held, reasoner.holds f.render = .ok held ∧ held.value = true := by
  intro reasoner f hf
  have hclause : .fact f ∈ reasoner.knowledge.clauses :=
    List.mem_append_left _ (List.mem_map_of_mem hf)
  obtain ⟨operation, hm, hop⟩ := exists_operation_of_mem_clauses hclause
  have hread := Term.read_render <|
    textual_of_clause?_fact hop fun heq => htext f (heq ▸ hm)
  have hask : reasoner.askText f.render = .ok (reasoner.ask f) := by
    rw [askText, hread]
    rfl
  have hempty := empty_mem_answers_ask hf
  refine ⟨⟨_, hask, hempty⟩, (reasoner.ask f).map Search.Findings.satisfied, ?_, ?_⟩
  · rw [holds, hask]
    rfl
  · exact Search.Findings.satisfied_iff.2 (List.ne_nil_of_mem hempty)

theorem stored_twin_answers_its_print :
    let twin : Term := ⟨"twin", [.var "X", .var "X", .const "ana"], by simp, by simp⟩
    let operations : List Operation :=
      [.rule ⟨twin, [twin]⟩, .factText " twin(X,X, ana)", .query "twin(", .clauseText "born(ana) ."]
    let reasoner := after { settings := ⟨0, .anySymbol⟩ } operations
    (∀ t, .fact t ∉ operations) ∧ twin ∈ reasoner.facts ∧
      (∃ found, reasoner.askText twin.render = .ok found ∧ .empty ∈ found.value.answers) ∧
        ∃ held, reasoner.holds twin.render = .ok held ∧ held.value = true := by
  intro twin operations reasoner
  have htext : ∀ t, .fact t ∉ operations := by simp [operations]
  have hstored : twin ∈ reasoner.facts := List.mem_cons_self
  exact ⟨htext, hstored,
    stored_fact_answers_its_print ⟨0, .anySymbol⟩ operations htext twin hstored⟩

end Reasoner

end Backchain
