import Mathlib.Logic.Relation
import Backchain.Proofs.Search.Derivation
import Backchain.Proofs.Unification

/-!
# Layered rules are answered soundly

A knowledge base entails the terms of the least set that holds its facts and is closed under the
ground instances of its rules. Variables of rules are not renamed, so an answer to a goal binds
variables of all rules that were used for it, and an update by it can overwrite what the rule above
has bound. Where rules share no variables and none is used below itself, that does not happen:
a ground goal that has an answer is entailed.
-/

namespace Backchain

namespace KnowledgeBase

inductive Entails (kb : KnowledgeBase) : Term → Prop
  | fact {fact : Term} : fact ∈ kb.facts → kb.Entails fact
  | rule {rule : Rule} (θ : Valuation) : rule ∈ kb.rules →
      (∀ goal ∈ rule.body, kb.Entails (goal.ground θ)) → kb.Entails (rule.head.ground θ)

def DependsOn (kb : KnowledgeBase) (symbol other : String) : Prop :=
  ∃ rule ∈ kb.rules, rule.head.symbol = symbol ∧ ∃ goal ∈ rule.body, goal.symbol = other

def Reaches (kb : KnowledgeBase) : String → String → Prop := Relation.ReflTransGen kb.DependsOn

structure Layered (kb : KnowledgeBase) : Prop where
  facts_ground : ∀ fact ∈ kb.facts, fact.Ground
  heads_linear : ∀ rule ∈ kb.rules, rule.head.Linear
  body_variables : ∀ rule ∈ kb.rules, ∀ goal ∈ rule.body,
    ∀ x ∈ goal.varNames, x ∈ rule.head.varNames
  apart : ∀ rule ∈ kb.rules, ∀ other ∈ kb.rules, rule ≠ other →
    ∀ x ∈ rule.varNames, x ∉ other.varNames
  acyclic : ∀ rule ∈ kb.rules, ∀ goal ∈ rule.body, ¬ kb.Reaches goal.symbol rule.head.symbol

def VariableBelow (kb : KnowledgeBase) (symbol name : String) : Prop :=
  ∃ rule ∈ kb.rules, kb.Reaches symbol rule.head.symbol ∧ name ∈ rule.head.varNames

theorem VariableBelow.of_dependsOn {kb : KnowledgeBase} {symbol other name : String}
    (hd : kb.DependsOn symbol other) (h : kb.VariableBelow other name) :
    kb.VariableBelow symbol name := by
  obtain ⟨rule, hr, hreach, hx⟩ := h
  exact ⟨rule, hr, hreach.head hd, hx⟩

theorem head_varNames_subset (rule : Rule) : rule.head.varNames ⊆ rule.varNames :=
  fun _ hx => mem_varNamesOf List.mem_cons_self hx

/-- Below a goal of a body, no rule binds a variable of the rule that the goal belongs to. -/
theorem Layered.not_variableBelow {kb : KnowledgeBase} (hl : kb.Layered) {rule : Rule}
    (hr : rule ∈ kb.rules) {goal : Term} (hg : goal ∈ rule.body) {x : String}
    (hx : x ∈ rule.head.varNames) : ¬ kb.VariableBelow goal.symbol x := by
  rintro ⟨other, ho, hreach, hx'⟩
  have hne : rule ≠ other := by
    rintro rfl
    exact hl.acyclic rule hr goal hg hreach
  exact hl.apart rule hr other ho hne x (head_varNames_subset rule hx)
    (head_varNames_subset other hx')

theorem not_reaches_of_rank {kb : KnowledgeBase} (rank : String → Nat)
    (h : ∀ rule ∈ kb.rules, ∀ goal ∈ rule.body, rank goal.symbol < rank rule.head.symbol) :
    ∀ rule ∈ kb.rules, ∀ goal ∈ rule.body, ¬ kb.Reaches goal.symbol rule.head.symbol := by
  have hle : ∀ symbol other, kb.Reaches symbol other → rank other ≤ rank symbol := by
    intro symbol other hreach
    induction hreach with
    | refl => exact Nat.le_refl _
    | tail _ hd ih =>
      obtain ⟨rule, hr, rfl, goal, hg, rfl⟩ := hd
      exact Nat.le_trans (Nat.le_of_lt (h rule hr goal hg)) ih
  intro rule hr goal hg hreach
  exact absurd (hle _ _ hreach) (Nat.not_le.mpr (h rule hr goal hg))

/-- A bound on the names that an answer to a goal may bind, given by the symbol of the goal. No
answer touches a variable of the rule above while another goal of its body is to come. -/
structure Scoped (kb : KnowledgeBase) (MayBind : String → String → Prop) : Prop where
  facts_ground : ∀ fact ∈ kb.facts, fact.Ground
  heads_linear : ∀ rule ∈ kb.rules, rule.head.Linear
  body_variables : ∀ rule ∈ kb.rules, ∀ goal ∈ rule.body,
    ∀ x ∈ goal.varNames, x ∈ rule.head.varNames
  head : ∀ rule ∈ kb.rules, ∀ x ∈ rule.head.varNames, MayBind rule.head.symbol x
  body : ∀ rule ∈ kb.rules, ∀ goal ∈ rule.body, ∀ x, MayBind goal.symbol x →
    MayBind rule.head.symbol x
  spared : ∀ rule ∈ kb.rules, ∀ done goal next rest, rule.body = done ++ goal :: next :: rest →
    ∀ x ∈ rule.head.varNames, ¬ MayBind goal.symbol x

theorem Layered.scoped {kb : KnowledgeBase} (hl : kb.Layered) : kb.Scoped kb.VariableBelow where
  facts_ground := hl.facts_ground
  heads_linear := hl.heads_linear
  body_variables := hl.body_variables
  head rule hr _ hx := ⟨rule, hr, .refl, hx⟩
  body rule hr goal hg _ hx := hx.of_dependsOn ⟨rule, hr, rfl, goal, hg, rfl⟩
  spared rule hr done goal next rest hbody _ hx :=
    hl.not_variableBelow hr (by simp [hbody]) hx

end KnowledgeBase

namespace Search

open KnowledgeBase (Entails Layered Scoped VariableBelow)

variable {kb : KnowledgeBase} {MayBind : String → String → Prop}

-- ---------------------------------------------------------------------------
-- What a derivation shows
-- ---------------------------------------------------------------------------

mutual
theorem Derivation.entails_of_scoped (hs : kb.Scoped MayBind) (hc : kb.Conventional) {goal : Term}
    {answer : Substitution} (tree : Derivation kb .sameSymbol goal answer) (hg : goal.Ground)
    (hgc : goal.Conventional) :
    kb.Entails goal ∧ ∀ x, answer.get? x ≠ none → MayBind goal.symbol x := by
  match tree with
  | .fact fact hf hu =>
    obtain rfl : goal = fact := eq_of_unify?_ground hu hg (hs.facts_ground fact hf)
    have hanswer : answer = .empty := by
      rw [← unify_eq_ok_iff, unify_self] at hu
      exact (Except.ok.inj hu).symm
    exact ⟨.fact hf, fun x hx => absurd (by rw [hanswer]; rfl) hx⟩
  | .rule rule seed hr hu body =>
    obtain ⟨θ, rfl, hbinds⟩ :=
      exists_instance_of_unify? hu hg (hs.heads_linear rule hr) hgc (hc.head hr)
    have hbelow : ∀ x, seed.get? x ≠ none → MayBind rule.head.symbol x := by
      intro x hx
      by_cases hm : x ∈ rule.head.varNames
      · exact hs.head rule hr x hm
      · exact absurd (hbinds.get?_eq_none hm) hx
    obtain ⟨hgoals, hanswer⟩ := body.entails_of_scoped hs hc hr
      (fun _ => Term.conventional_value hgc) ⟨[], rfl⟩ (fun _ _ hx => hbinds.get? hx) hbelow
    exact ⟨.rule θ hr hgoals, hanswer⟩
theorem BodyDerivation.entails_of_scoped (hs : kb.Scoped MayBind) (hc : kb.Conventional)
    {rule : Rule} (hr : rule ∈ kb.rules) {θ : Valuation}
    (hθ : ∀ x ∈ rule.head.varNames, (Atom.const (θ x)).Conventional) {goals : List Term}
    {sofar answer : Substitution} (body : BodyDerivation kb .sameSymbol goals sofar answer)
    (hgoals : ∃ done, rule.body = done ++ goals)
    (hsofar : goals ≠ [] → ∀ x ∈ rule.head.varNames, sofar.get? x = some (.const (θ x)))
    (hbelow : ∀ x, sofar.get? x ≠ none → MayBind rule.head.symbol x) :
    (∀ goal ∈ goals, kb.Entails (goal.ground θ)) ∧
      ∀ x, answer.get? x ≠ none → MayBind rule.head.symbol x := by
  match goals, body with
  | [], .nil => exact ⟨nofun, hbelow⟩
  | goal :: goals, .cons found child rest =>
    obtain ⟨done, hbody⟩ := hgoals
    have hgoal : goal ∈ rule.body := by simp [hbody]
    have hvars := hs.body_variables rule hr goal hgoal
    have hvalues := hsofar (List.cons_ne_nil _ _)
    have happly : sofar.apply goal = goal.ground θ :=
      Substitution.apply_eq_ground fun x hx => hvalues x (hvars x hx)
    have hconv : (goal.ground θ).Conventional :=
      (hc.body hr hgoal).ground fun x hx => hθ x (hvars x hx)
    obtain ⟨hentails, hfound⟩ := child.entails_of_scoped hs hc
      (happly ▸ Term.ground_ground θ goal) (happly ▸ hconv)
    -- The last goal may overwrite the variables of the rule: nothing looks at them any more.
    have hkeep : goals ≠ [] → ∀ x ∈ rule.head.varNames, found.get? x = none := by
      intro hne x hx
      obtain ⟨next, later, rfl⟩ := List.exists_cons_of_ne_nil hne
      cases hf : found.get? x with
      | none => rfl
      | some value =>
        have hspared := hs.spared rule hr done goal next later hbody x hx
        exact absurd (hfound x (by simp [hf])) hspared
    obtain ⟨hrest, hanswer⟩ := rest.entails_of_scoped hs hc hr hθ ⟨done ++ [goal], by simp [hbody]⟩
      (fun hne x hx =>
        (Substitution.get?_update_of_get?_eq_none (hkeep hne x hx)).trans (hvalues x hx))
      (fun x hx => by
        by_cases hx' : found.get? x = none
        · rw [Substitution.get?_update_of_get?_eq_none hx'] at hx
          exact hbelow x hx
        · exact hs.body rule hr goal hgoal x (hfound x hx'))
    exact ⟨List.forall_mem_cons.mpr ⟨happly ▸ hentails, hrest⟩, hanswer⟩
end

theorem Derivation.entails (hl : kb.Layered) (hc : kb.Conventional) {goal : Term}
    {answer : Substitution} (tree : Derivation kb .sameSymbol goal answer) (hg : goal.Ground)
    (hgc : goal.Conventional) :
    kb.Entails goal ∧ ∀ x, answer.get? x ≠ none → kb.VariableBelow goal.symbol x :=
  tree.entails_of_scoped hl.scoped hc hg hgc

theorem entails_of_solve {kb : KnowledgeBase} {settings : Settings} {goal : Term}
    (hl : kb.Layered) (hc : kb.Conventional) (hm : settings.matching = .sameSymbol)
    (hg : goal.Ground) (hgc : goal.Conventional)
    (hs : (solve kb settings goal).value.answers ≠ []) : kb.Entails goal := by
  obtain ⟨answer, ha⟩ := List.exists_mem_of_ne_nil _ hs
  obtain ⟨tree, -⟩ := (prove_justifies kb settings 0).derives goal .empty answer ha
  exact ((hm ▸ tree).entails hl hc hg hgc).1

def forebear (elder younger : Atom) : Term :=
  { parent elder younger with symbol := "forebear", symbol_ne := by decide }

def lineage : KnowledgeBase where
  facts := kinship.facts
  rules :=
    [{ head := ⟨"line", [.var "X", .var "Y", .var "Z"], by decide, by decide⟩
       body := [forebear (.var "X") (.var "Y"), forebear (.var "Y") (.var "Z")] },
      { head := forebear (.var "A") (.var "B"), body := [parent (.var "A") (.var "B")] }]

theorem layered_lineage : lineage.Layered where
  facts_ground := by decide
  heads_linear := by decide
  body_variables := by decide
  apart := by decide
  acyclic := KnowledgeBase.not_reaches_of_rank
    (fun symbol => if symbol = "line" then 2 else if symbol = "forebear" then 1 else 0) (by decide)

theorem entails_line :
    let goal : Term := ⟨"line", [.const "ivo", .const "ana", .const "luka"], by decide, by decide⟩
    lineage.Layered ∧ lineage.Conventional ∧ goal.Ground ∧ goal.Conventional ∧
      (solve lineage {} goal).value.answers ≠ [] ∧ lineage.Entails goal := by
  intro goal
  have hc : lineage.Conventional := by decide +kernel
  have hg : goal.Ground := by decide
  have hgc : goal.Conventional := by decide +kernel
  have hs : (solve lineage {} goal).value.answers ≠ [] := by decide
  exact ⟨layered_lineage, hc, hg, hgc, hs, entails_of_solve layered_lineage hc rfl hg hgc hs⟩

end Search

end Backchain
