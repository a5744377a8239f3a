import Backchain.Proofs.Reasoner.History

/-!
# Operations succeed or change nothing

An operation reads its texts one by one, and only then adds a clause. So when it fails, which it
does at the first text that cannot be read, the reasoner is as it was before, and the error is about
that text. What a reasoner holds in the end are the clauses of the operations that succeeded.
-/

namespace Backchain

-- ---------------------------------------------------------------------------
-- Readers that can fail
-- ---------------------------------------------------------------------------

section

variable {ε α β : Type} {e : ε}

theorem bind_eq_error_iff {x : Except ε α} {f : α → Except ε β} :
    x >>= f = .error e ↔ x = .error e ∨ ∃ a, x = .ok a ∧ f a = .error e := by
  cases x <;> simp [bind, Except.bind]

theorem bind_pure_eq_error_iff {x : Except ε α} {f : α → β} :
    (x >>= fun a => pure (f a)) = .error e ↔ x = .error e := by
  simp [bind_eq_error_iff, pure, Except.pure]

/-- The error is that of the first piece that is refused. -/
theorem mapM_eq_error_iff {read : β → Except ε α} {pieces : List β} :
    pieces.mapM read = .error e ↔
      ∃ earlier piece later, pieces = earlier ++ piece :: later ∧
        (∀ p ∈ earlier, ∃ a, read p = .ok a) ∧ read piece = .error e := by
  induction pieces with
  | nil => simp [pure, Except.pure]
  | cons piece pieces ih =>
    simp only [List.mapM_cons, bind_eq_error_iff, ih]
    constructor
    · rintro (h | ⟨a, ha, ⟨earlier, refused, later, rfl, hearlier, h⟩ | ⟨items, -, h⟩⟩)
      · exact ⟨[], piece, pieces, rfl, by simp, h⟩
      · exact ⟨piece :: earlier, refused, later, rfl,
          List.forall_mem_cons.2 ⟨⟨a, ha⟩, hearlier⟩, h⟩
      · cases h
    · rintro ⟨earlier, refused, later, hsplit, hearlier, h⟩
      cases earlier with
      | nil =>
        cases hsplit
        exact .inl h
      | cons first earlier =>
        cases hsplit
        obtain ⟨⟨a, ha⟩, hrest⟩ := List.forall_mem_cons.1 hearlier
        exact .inr ⟨a, ha, .inl ⟨earlier, refused, later, rfl, hrest, h⟩⟩

theorem ofExcept_bind_apply {σ : Type} (x : Except ε α) (f : α → EStateM ε σ β) (s : σ) :
    (MonadExcept.ofExcept x >>= f) s =
      match x with
      | .ok a => f a s
      | .error e => .error e s := by
  cases x <;> rfl

theorem mapM_ofExcept_apply {σ : Type} (read : β → Except ε α) (pieces : List β) (s : σ) :
    (pieces.mapM fun piece => (MonadExcept.ofExcept (read piece) : EStateM ε σ α)) s =
      match pieces.mapM read with
      | .ok items => .ok items s
      | .error e => .error e s := by
  induction pieces with
  | nil => rfl
  | cons piece pieces ih =>
    rw [List.mapM_cons, ofExcept_bind_apply, List.mapM_cons]
    cases read piece with
    | error e => rfl
    | ok a =>
      change (EStateM.bind _ _) s = _
      rw [EStateM.bind, ih]
      cases pieces.mapM read <;> rfl

end

namespace Reasoner

-- ---------------------------------------------------------------------------
-- Where an operation fails
-- ---------------------------------------------------------------------------

namespace Operation

/-- The text is the one that makes the operation fail: of the head and the goals of a rule, the
first that is no term. -/
inductive FailsAt : Operation → String → Prop where
  | factText {text e} (h : Term.read text = .error e) : FailsAt (.factText text) text
  | ruleText {head goals earlier part later e} (hparts : head :: goals = earlier ++ part :: later)
      (hearlier : ∀ p ∈ earlier, ∃ t, Term.read p = .ok t) (h : Term.read part = .error e) :
      FailsAt (.ruleText head goals) part
  | clauseText {text e} (h : Clause.read text = .error e) : FailsAt (.clauseText text) text
  | query {text e} (h : Term.read text = .error e) : FailsAt (.query text) text

/-- An operation step by step, on a reasoner that changes under it. What was done to the reasoner
before a step fails is not undone. -/
def steps : Operation → EStateM Error Reasoner Unit
  | .fact t => modify fun reasoner => (reasoner.tell (.fact t)).value
  | .rule r => modify fun reasoner => (reasoner.tell (.rule r)).value
  | .factText text => do
    let t ← MonadExcept.ofExcept (Term.read text)
    modify fun reasoner => (reasoner.tell (.fact t)).value
  | .ruleText head goals => do
    let head ← MonadExcept.ofExcept (Term.read head)
    let body ← goals.mapM fun goal => MonadExcept.ofExcept (Term.read goal)
    modify fun reasoner => (reasoner.tell (.rule ⟨head, body⟩)).value
  | .clauseText text => do
    let clause ← MonadExcept.ofExcept (Clause.read text)
    modify fun reasoner => (reasoner.tell clause).value
  | .query text => do
    let goal ← MonadExcept.ofExcept (Term.read text)
    let reasoner ← get
    let _ := reasoner.ask goal

end Operation

section

variable {reasoner : Reasoner} {e : Error}

theorem tellRule_eq_error_iff {head : String} {goals : List String} :
    reasoner.tellRule head goals = .error e ↔ (head :: goals).mapM Term.read = .error e := by
  simp only [tellRule, List.mapM_cons, bind_eq_error_iff, reduceCtorEq, and_false, exists_false,
    or_false, pure, Except.pure]

theorem perform_factText_eq_error_iff {text : String} :
    reasoner.perform (.factText text) = .error e ↔ Term.read text = .error e :=
  bind_pure_eq_error_iff.trans bind_pure_eq_error_iff

theorem perform_ruleText_eq_error_iff {head : String} {goals : List String} :
    reasoner.perform (.ruleText head goals) = .error e ↔
      ∃ earlier part later, head :: goals = earlier ++ part :: later ∧
        (∀ p ∈ earlier, ∃ t, Term.read p = .ok t) ∧ Term.read part = .error e :=
  bind_pure_eq_error_iff.trans (tellRule_eq_error_iff.trans mapM_eq_error_iff)

theorem perform_clauseText_eq_error_iff {text : String} :
    reasoner.perform (.clauseText text) = .error e ↔ Clause.read text = .error e :=
  bind_pure_eq_error_iff.trans bind_pure_eq_error_iff

theorem perform_query_eq_error_iff {text : String} :
    reasoner.perform (.query text) = .error e ↔ Term.read text = .error e :=
  bind_pure_eq_error_iff.trans bind_pure_eq_error_iff

theorem perform_eq_error_iff {operation : Operation} :
    reasoner.perform operation = .error e ↔
      ∃ text, operation.FailsAt text ∧ e = .malformedTerm (Text.trim text) := by
  constructor
  · intro h
    cases operation with
    | fact t => cases h
    | rule r => cases h
    | factText text =>
      rw [perform_factText_eq_error_iff] at h
      exact ⟨text, .factText h, (Term.read_eq_error_iff.1 h).2⟩
    | ruleText head goals =>
      obtain ⟨earlier, part, later, hparts, hearlier, h⟩ := perform_ruleText_eq_error_iff.1 h
      exact ⟨part, .ruleText hparts hearlier h, (Term.read_eq_error_iff.1 h).2⟩
    | clauseText text =>
      rw [perform_clauseText_eq_error_iff] at h
      exact ⟨text, .clauseText h, (Clause.read_eq_error_iff.1 h).2⟩
    | query text =>
      rw [perform_query_eq_error_iff] at h
      exact ⟨text, .query h, (Term.read_eq_error_iff.1 h).2⟩
  · rintro ⟨text, hfails, rfl⟩
    cases hfails with
    | factText h =>
      obtain rfl := (Term.read_eq_error_iff.1 h).2
      exact perform_factText_eq_error_iff.2 h
    | ruleText hparts hearlier h =>
      obtain rfl := (Term.read_eq_error_iff.1 h).2
      exact perform_ruleText_eq_error_iff.2 ⟨_, _, _, hparts, hearlier, h⟩
    | clauseText h =>
      obtain rfl := (Clause.read_eq_error_iff.1 h).2
      exact perform_clauseText_eq_error_iff.2 h
    | query h =>
      obtain rfl := (Term.read_eq_error_iff.1 h).2
      exact perform_query_eq_error_iff.2 h

end

theorem steps_eq_perform (operation : Operation) (reasoner : Reasoner) :
    operation.steps reasoner =
      match reasoner.perform operation with
      | .ok changed => .ok () changed
      | .error e => .error e reasoner := by
  cases operation with
  | fact t => rfl
  | rule r => rfl
  | factText text =>
    cases h : Term.read text <;>
      (simp only [Operation.steps, perform, tellFact, h]; rfl)
  | ruleText head goals =>
    simp only [Operation.steps, ofExcept_bind_apply]
    cases hh : Term.read head with
    | error e =>
      simp only [perform, tellRule, hh]
      rfl
    | ok t =>
      change (EStateM.bind _ _) reasoner = _
      rw [EStateM.bind, mapM_ofExcept_apply]
      cases hb : goals.mapM Term.read <;> (simp only [perform, tellRule, hh, hb]; rfl)
  | clauseText text =>
    cases h : Clause.read text <;>
      (simp only [Operation.steps, perform, tellText, h]; rfl)
  | query text =>
    cases h : Term.read text <;> (simp only [Operation.steps, perform, askText, h]; rfl)

-- ---------------------------------------------------------------------------
-- Histories
-- ---------------------------------------------------------------------------

/-- Of the operations those that succeed, each on the reasoner that the ones before it left. -/
def succeeding (reasoner : Reasoner) : List Operation → List Operation
  | [] => []
  | operation :: operations =>
    match reasoner.perform operation with
    | .ok changed => operation :: changed.succeeding operations
    | .error _ => reasoner.succeeding operations

theorem clause?_eq_none_of_error {reasoner : Reasoner} {operation : Operation} {e : Error}
    (h : reasoner.perform operation = .error e) : operation.clause? = none := by
  cases operation with
  | fact t => cases h
  | rule r => cases h
  | factText text =>
    rw [perform_factText_eq_error_iff] at h
    simp [Operation.clause?, h, Except.toOption]
  | ruleText head goals =>
    have hparts : (head :: goals).mapM Term.read = .error e :=
      tellRule_eq_error_iff.1 (bind_pure_eq_error_iff.1 h)
    refine Option.eq_none_iff_forall_ne_some.2 fun clause hclause => ?_
    simp only [Operation.clause?, Option.bind_eq_bind, Option.bind_eq_some_iff,
      toOption_eq_some_iff] at hclause
    obtain ⟨t, ht, body, hb, -⟩ := hclause
    rw [List.mapM_cons, ht, hb] at hparts
    cases hparts
  | clauseText text =>
    rw [perform_clauseText_eq_error_iff] at h
    simp [Operation.clause?, h, Except.toOption]
  | query text => rfl

theorem filterMap_clause?_succeeding (reasoner : Reasoner) (operations : List Operation) :
    (reasoner.succeeding operations).filterMap Operation.clause? =
      operations.filterMap Operation.clause? := by
  induction operations generalizing reasoner with
  | nil => rfl
  | cons operation operations ih =>
    rw [succeeding]
    split
    · rw [List.filterMap_cons, List.filterMap_cons, ih]
    · rename_i h
      rw [List.filterMap_cons, clause?_eq_none_of_error h, ih]

theorem attempt_query (reasoner : Reasoner) (text : String) :
    reasoner.attempt (.query text) = reasoner := by
  rw [attempt_eq]
  rfl

/-- Whatever is done to a reasoner, it holds the clauses that it held before and those of the
operations that succeeded, in their order, under the settings that it had. An operation fails for
one reason only: a text of it cannot be read, of several the first that cannot. The error holds this
text without the white space around it, and the operation, taken step by step, has changed nothing
until then. A query never changes anything. -/
theorem after_holds_what_succeeded (reasoner : Reasoner) (operations : List Operation) :
    let now := reasoner.after operations
    let clauses := (reasoner.succeeding operations).filterMap Operation.clause?
    (now.facts = reasoner.facts ++ clauses.filterMap Clause.fact? ∧
        now.rules = reasoner.rules ++ clauses.filterMap Clause.rule? ∧
        now.settings = reasoner.settings) ∧
      (∀ operation e, now.perform operation = .error e ↔
        ∃ text, operation.FailsAt text ∧ e = .malformedTerm (Text.trim text)) ∧
      (∀ operation, operation.steps now =
        match now.perform operation with
        | .ok changed => .ok () changed
        | .error e => .error e now) ∧
      ∀ text, reasoner.after (operations ++ [.query text]) = now := by
  intro now clauses
  have hnow : now = { reasoner with knowledge := reasoner.knowledge.addAll clauses } := by
    rw [show clauses = _ from filterMap_clause?_succeeding reasoner operations]
    exact after_eq reasoner operations
  refine ⟨?_, fun _ _ => perform_eq_error_iff, fun operation => steps_eq_perform operation now, ?_⟩
  · rw [hnow, KnowledgeBase.addAll_eq]
    exact ⟨rfl, rfl, rfl⟩
  · intro text
    rw [after_append]
    exact attempt_query now text

/-- The first goal that is no term is to blame, and not the head or a later goal. -/
example :
    Operation.steps (.ruleText "brother(X, Y)" ["son(X, Z)", " son Y\n", "("]) {} =
      .error (.malformedTerm "son Y") {} := by
  rfl

end Reasoner
end Backchain
