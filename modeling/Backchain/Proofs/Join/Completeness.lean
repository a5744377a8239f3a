import Backchain.Proofs.Join.Loop
import Backchain.Reasoner

/-!
# Which rows of a join are answered

A knowledge base of ground facts and one rule, none of whose goals has the symbol of its head, joins
the facts that the goals of the rule match. An open goal for the head has an answer for a valuation
of the body exactly if the valuation survives the guard: two rows that lead to one pattern share a
turn, and the later one is lost.
-/

namespace Backchain

open Search

structure KnowledgeBase.Joins (kb : KnowledgeBase) (rule : Rule) : Prop where
  rules_eq : kb.rules = [rule]
  conventional : kb.Conventional
  facts_ground : ∀ fact ∈ kb.facts, fact.Ground
  body_linear : ∀ goal ∈ rule.body, goal.Linear
  body_foreign : ∀ goal ∈ rule.body, goal.symbol ≠ rule.head.symbol

/-- The goal asks for all instances of the head, in variables of its own. -/
structure Rule.OpenedBy (rule : Rule) (goal : Term) : Prop where
  symbol_eq : goal.symbol = rule.head.symbol
  arity_eq : goal.arity = rule.head.arity
  open_arguments : ∀ a ∈ goal.arguments, a.isVariable = true
  apart : ∀ x ∈ goal.varNames, x ∉ rule.varNames

/-- Some answer to the goal gives the variables of the body their values. -/
def Reasoner.Answers (reasoner : Reasoner) (goal : Term) (body : List Term) (θ : Valuation) :
    Prop :=
  ∃ answer ∈ (reasoner.ask goal).value.answers,
    ∀ x ∈ varNamesOf body, answer.get? x = some (.const (θ x))

instance (reasoner : Reasoner) (goal : Term) (body : List Term) (θ : Valuation) :
    Decidable (reasoner.Answers goal body θ) :=
  inferInstanceAs (Decidable (∃ answer ∈ (reasoner.ask goal).value.answers,
    ∀ x ∈ varNamesOf body, answer.get? x = some (.const (θ x))))

section
variable {reasoner : Reasoner} {rule : Rule} {goal : Term}
  (hj : reasoner.knowledge.Joins rule) (hq : rule.OpenedBy goal)
  (hm : reasoner.settings.matching = .sameSymbol) (hd : 1 ≤ reasoner.settings.depthBound)

theorem Rule.OpenedBy.not_mem_body (hq : rule.OpenedBy goal) {x : String}
    (hx : x ∈ varNamesOf rule.body) : x ∉ goal.varNames := by
  obtain ⟨other, ho, hx⟩ := List.mem_flatMap.mp hx
  exact fun hg => hq.apart x hg (mem_varNamesOf (List.mem_cons_of_mem _ ho) hx)

include hj hq hm hd

theorem exists_rows :
    ∃ rows state, (reasoner.ask goal).value.answers =
        reasoner.facts.filterMap (unify? .sameSymbol goal) ++ rows ∧
      Tracks reasoner.facts (varNamesOf rule.body) rule.head.symbol rule.body rows state := by
  obtain ⟨seed, hseed⟩ :=
    exists_unify?_of_variables hq.open_arguments hq.arity_eq hq.symbol_eq .sameSymbol
  let sub : Strategy := fun goal state => prove reasoner.knowledge reasoner.settings goal state 1
  have hsub : ∀ goal : Term, goal.symbol ≠ rule.head.symbol → LooksUp reasoner.facts sub goal := by
    intro goal hg
    refine prove_looksUp hm hd fun other ho => ?_
    rw [hj.rules_eq, List.mem_singleton] at ho
    exact ho ▸ hg
  have hbody : ∀ goal ∈ rule.body, JoinGoal (varNamesOf rule.body) rule.head.symbol goal := by
    intro goal hg
    exact ⟨hj.body_linear goal hg, hj.conventional.body (by simp [hj.rules_eq]) hg,
      hj.body_foreign goal hg, fun x hx => mem_varNamesOf hg hx⟩
  have hstart : Tracks reasoner.facts (varNamesOf rule.body) rule.head.symbol [] [seed]
      (State.empty.enter goal) :=
    .nil hq.symbol_eq
      (fun x hx => get?_eq_none_of_unify? hseed hq.open_arguments (hq.not_mem_body hx)) _
  have htracks : Tracks reasoner.facts (varNamesOf rule.body) rule.head.symbol ([] ++ rule.body)
      (proveBody sub rule.body [seed] (State.empty.enter goal)).answers
      (proveBody sub rule.body [seed] (State.empty.enter goal)).state :=
    proveBody_tracks (fun fact => hj.conventional.fact) hj.facts_ground hsub hbody hstart
  refine ⟨_, _, ?_, htracks⟩
  have hnew : goal ∉ State.empty.entered := List.not_mem_nil
  have hask : (reasoner.ask goal).value.answers =
      (prove reasoner.knowledge reasoner.settings goal .empty 0).answers := rfl
  rw [hask, prove_of_le_bound (Nat.zero_le _), if_neg hnew]
  simp only [tryAll, answers_tryFacts, state_tryFacts, hm, hj.rules_eq, forEach, tryRule,
    unify_eq_ok_iff.mpr hseed, List.append_nil]
  rfl

/-- A valuation has an answer if it survives, and only then unless the body has no variables. -/
theorem answers_iff_survives (θ : Valuation) :
    (Survives reasoner.facts rule.body θ → reasoner.Answers goal rule.body θ) ∧
      (varNamesOf rule.body ≠ [] → reasoner.Answers goal rule.body θ →
        Survives reasoner.facts rule.body θ) := by
  obtain ⟨rows, state, hanswers, htracks⟩ := exists_rows hj hq hm hd
  constructor
  · intro hs
    obtain ⟨earlier, row, later, rfl, hrow, -⟩ := htracks.first θ hs
    refine ⟨row, by simp [hanswers], ?_⟩
    intro x hx
    rw [hrow.binds x hx, if_pos hx]
  · rintro hne ⟨answer, ha, hvalues⟩
    rw [hanswers] at ha
    rcases List.mem_append.mp ha with ha | ha
    -- An answer by a fact binds the variables of the goal alone.
    · obtain ⟨x, hx⟩ := List.exists_mem_of_ne_nil _ hne
      obtain ⟨fact, -, hu⟩ := List.mem_filterMap.mp ha
      have hnone := get?_eq_none_of_unify? hu hq.open_arguments (hq.not_mem_body hx)
      rw [hvalues x hx] at hnone
      cases hnone
    · obtain ⟨η, hη, hrow⟩ := htracks.survivor answer ha
      refine hη.congr fun x hx => ?_
      have hvalue := hrow.binds x hx
      rw [if_pos hx, hvalues x hx] at hvalue
      exact (Atom.const.inj (Option.some.inj hvalue)).symm

end

-- ---------------------------------------------------------------------------
-- A menu
-- ---------------------------------------------------------------------------

def meal : Rule where
  head := ⟨"meal", [.var "Dish", .var "Drink"], by decide, by decide⟩
  body :=
    [⟨"dish", [.var "Dish"], by decide, by decide⟩, ⟨"drink", [.var "Drink"], by decide, by decide⟩]

def menu : KnowledgeBase where
  facts :=
    [⟨"dish", [.const "soup"], by decide, by decide⟩,
      ⟨"dish", [.const "stew"], by decide, by decide⟩,
      ⟨"drink", [.const "tea"], by decide, by decide⟩]
  rules := [meal]

def anyMeal : Term := ⟨"meal", [.var "P", .var "Q"], by decide, by decide⟩

theorem joins_menu : menu.Joins meal where
  rules_eq := rfl
  conventional := by decide +kernel
  facts_ground := by decide
  body_linear := by decide
  body_foreign := by decide

theorem openedBy_anyMeal : meal.OpenedBy anyMeal where
  symbol_eq := rfl
  arity_eq := rfl
  open_arguments := by decide
  apart := by decide

/-- The soup comes first, so it is the dish that the drink is looked up for. -/
theorem answers_soup_and_tea :
    let reasoner : Reasoner := { knowledge := menu }
    let θ : Valuation := fun x => if x = "Dish" then "soup" else "tea"
    menu.Joins meal ∧ meal.OpenedBy anyMeal ∧ reasoner.settings.matching = .sameSymbol ∧
      1 ≤ reasoner.settings.depthBound ∧ Survives reasoner.facts meal.body θ ∧
      reasoner.Answers anyMeal meal.body θ := by
  intro reasoner θ
  have hleast : ∀ k, ¬ [k] < [0] := by
    intro k h
    simp [List.cons_lt_cons_iff] at h
  have hdish : Survives menu.facts ([] ++ [⟨"dish", [.var "Dish"], by decide, by decide⟩]) θ :=
    survives_concat.mpr ⟨survives_nil _ θ, by decide, not_sought_nil _ _,
      fun η _ _ hlt => List.lt_irrefl _ hlt⟩
  have hs : Survives menu.facts ([⟨"dish", [.var "Dish"], by decide, by decide⟩] ++
      [⟨"drink", [.var "Drink"], by decide, by decide⟩]) θ := by
    refine survives_concat.mpr ⟨hdish, by decide, ?_, fun η _ _ => hleast _⟩
    rintro ⟨done, other, rest, η, h, -, hp⟩
    have hsymbol : other.symbol = "drink" := congrArg Term.symbol hp
    have hother : other ∈ done ++ other :: rest := by simp
    rw [← h, List.mem_singleton] at hother
    exact absurd (hother ▸ hsymbol) (by decide)
  exact ⟨joins_menu, openedBy_anyMeal, rfl, by decide, hs,
    (answers_iff_survives joins_menu openedBy_anyMeal rfl (by decide) θ).1 hs⟩

/-- The stew asks for the drink a second time and is passed over, though with tea it is a meal. -/
theorem not_answers_stew_and_tea :
    let reasoner : Reasoner := { knowledge := menu }
    let θ : Valuation := fun x => if x = "Dish" then "stew" else "tea"
    menu.Joins meal ∧ meal.head.Linear ∧ meal.OpenedBy anyMeal ∧ anyMeal.Linear ∧
      anyMeal.Conventional ∧ reasoner.settings.matching = .sameSymbol ∧
      1 ≤ reasoner.settings.depthBound ∧ (∀ goal ∈ meal.body, goal.ground θ ∈ reasoner.facts) ∧
      ¬ reasoner.Answers anyMeal meal.body θ := by
  intro reasoner θ
  have hc : anyMeal.Conventional := by decide +kernel
  have hm : ∀ goal ∈ meal.body, goal.ground θ ∈ reasoner.facts := by decide
  have ha : ¬ reasoner.Answers anyMeal meal.body θ := by decide
  exact ⟨joins_menu, by decide, openedBy_anyMeal, by decide, hc, rfl, by decide, hm, ha⟩

end Backchain
