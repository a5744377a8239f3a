import Backchain.Clause.Basic

/-!
# Variables and ground instances

A valuation gives every variable a constant. What it makes of a term is ground, and depends on
the values of the variables of the term alone.
-/

namespace Backchain

abbrev Valuation := String → String

namespace Atom

def varName? : Atom → Option String
  | .var name => some name
  | .const _ => none

theorem mem_filterMap_varName? {atoms : List Atom} {x : String} :
    x ∈ atoms.filterMap varName? ↔ .var x ∈ atoms := by
  rw [List.mem_filterMap]
  constructor
  · rintro ⟨a, ha, hx⟩
    cases a with
    | var name => cases hx; exact ha
    | const name => cases hx
  · exact fun h => ⟨_, h, rfl⟩

theorem nodup_varNames_cons_iff {a : Atom} {atoms : List Atom} :
    ((a :: atoms).filterMap varName?).Nodup ↔
      (∀ x, a = .var x → .var x ∉ atoms) ∧ (atoms.filterMap varName?).Nodup := by
  cases a with
  | var x =>
    have hcons : (.var x :: atoms).filterMap varName? = x :: atoms.filterMap varName? :=
      List.filterMap_cons_some rfl
    rw [hcons, List.nodup_cons, mem_filterMap_varName?]
    simp
  | const name =>
    rw [List.filterMap_cons_none rfl]
    simp

def ground (θ : Valuation) : Atom → Atom
  | .var name => .const (θ name)
  | .const name => .const name

@[simp]
theorem isVariable_ground (θ : Valuation) (a : Atom) : (a.ground θ).isVariable = false := by
  cases a <;> rfl

theorem ground_eq_self {a : Atom} (h : a.isVariable = false) (θ : Valuation) : a.ground θ = a := by
  cases a with
  | var name => cases h
  | const name => rfl

theorem Conventional.name_ne {x c : String} (hx : (var x).Conventional)
    (hc : (const c).Conventional) : x ≠ c := by
  rintro rfl
  exact Atom.noConfusion (hx.eq_of_name_eq hc rfl)

end Atom

namespace Term

/-- The names of the variables, from left to right, each as often as it stands in the term. -/
def varNames (t : Term) : List String := t.arguments.filterMap Atom.varName?

def Ground (t : Term) : Prop := t.hasVariables = false

def Linear (t : Term) : Prop := t.varNames.Nodup

def Conventional (t : Term) : Prop := ∀ a ∈ t.arguments, a.Conventional

instance : DecidablePred Ground := fun t => inferInstanceAs (Decidable (t.hasVariables = false))

instance : DecidablePred Linear := fun t => inferInstanceAs (Decidable t.varNames.Nodup)

instance : DecidablePred Conventional := fun t =>
  inferInstanceAs (Decidable (∀ a ∈ t.arguments, a.Conventional))

def ground (θ : Valuation) (t : Term) : Term := t.mapArguments (Atom.ground θ)

@[simp]
theorem arguments_ground (θ : Valuation) (t : Term) :
    (t.ground θ).arguments = t.arguments.map (Atom.ground θ) := rfl

theorem mem_varNames {t : Term} {x : String} : x ∈ t.varNames ↔ .var x ∈ t.arguments :=
  Atom.mem_filterMap_varName?

theorem ground_iff {t : Term} : t.Ground ↔ ∀ a ∈ t.arguments, a.isVariable = false := by
  simp [Ground, hasVariables]

theorem ground_ground (θ : Valuation) (t : Term) : (t.ground θ).Ground := by
  simp [ground_iff]

theorem Ground.not_mem_varNames {t : Term} (h : t.Ground) (x : String) : x ∉ t.varNames := by
  intro hx
  exact Bool.noConfusion (ground_iff.mp h _ (mem_varNames.mp hx))

theorem ground_eq_self {t : Term} (h : t.Ground) (θ : Valuation) : t.ground θ = t := by
  apply Term.ext
  · rfl
  · exact (List.map_congr_left fun a ha => Atom.ground_eq_self (ground_iff.mp h a ha) θ).trans
      (List.map_id _)

theorem Ground.linear {t : Term} (h : t.Ground) : t.Linear := by
  have hnone : t.varNames = [] := List.eq_nil_iff_forall_not_mem.mpr h.not_mem_varNames
  simp [Linear, hnone]

theorem conventional_value {t : Term} {θ : Valuation} (h : (t.ground θ).Conventional) {x : String}
    (hx : x ∈ t.varNames) : (Atom.const (θ x)).Conventional :=
  h _ (List.mem_map.mpr ⟨_, mem_varNames.mp hx, rfl⟩)

theorem Conventional.ground {t : Term} (ht : t.Conventional) {θ : Valuation}
    (h : ∀ x ∈ t.varNames, (Atom.const (θ x)).Conventional) : (t.ground θ).Conventional := by
  intro a ha
  obtain ⟨b, hb, rfl⟩ := List.mem_map.mp ha
  cases b with
  | var name => exact h name (mem_varNames.mpr hb)
  | const name => exact ht _ hb

theorem ground_congr {t : Term} {θ η : Valuation} (h : ∀ x ∈ t.varNames, θ x = η x) :
    t.ground θ = t.ground η := by
  apply Term.ext
  · rfl
  · apply List.map_congr_left
    intro a ha
    cases a with
    | var name => exact congrArg Atom.const (h name (mem_varNames.mpr ha))
    | const name => rfl

end Term

def varNamesOf (goals : List Term) : List String := goals.flatMap Term.varNames

theorem mem_varNamesOf {goals : List Term} {goal : Term} (hg : goal ∈ goals) {x : String}
    (hx : x ∈ goal.varNames) : x ∈ varNamesOf goals :=
  List.mem_flatMap.mpr ⟨goal, hg, hx⟩

def Rule.terms (rule : Rule) : List Term := rule.head :: rule.body

def Rule.varNames (rule : Rule) : List String := varNamesOf rule.terms

namespace KnowledgeBase

def terms (kb : KnowledgeBase) : List Term := kb.facts ++ kb.rules.flatMap Rule.terms

def Conventional (kb : KnowledgeBase) : Prop := ∀ t ∈ kb.terms, t.Conventional

instance : DecidablePred Conventional := fun kb =>
  inferInstanceAs (Decidable (∀ t ∈ kb.terms, t.Conventional))

variable {kb : KnowledgeBase}

theorem mem_terms_of_fact {fact : Term} (hf : fact ∈ kb.facts) : fact ∈ kb.terms :=
  List.mem_append_left _ hf

theorem mem_terms_of_rule {rule : Rule} (hr : rule ∈ kb.rules) {t : Term} (ht : t ∈ rule.terms) :
    t ∈ kb.terms :=
  List.mem_append_right _ (List.mem_flatMap.mpr ⟨rule, hr, ht⟩)

theorem mem_terms_of_head {rule : Rule} (hr : rule ∈ kb.rules) : rule.head ∈ kb.terms :=
  mem_terms_of_rule hr List.mem_cons_self

theorem mem_terms_of_body {rule : Rule} (hr : rule ∈ kb.rules) {goal : Term}
    (hg : goal ∈ rule.body) : goal ∈ kb.terms :=
  mem_terms_of_rule hr (List.mem_cons_of_mem _ hg)

namespace Conventional

variable (h : kb.Conventional)
include h

theorem fact {fact : Term} (hf : fact ∈ kb.facts) : fact.Conventional :=
  h fact (mem_terms_of_fact hf)

theorem rule {rule : Rule} (hr : rule ∈ kb.rules) {t : Term} (ht : t ∈ rule.terms) :
    t.Conventional :=
  h t (mem_terms_of_rule hr ht)

theorem head {rule : Rule} (hr : rule ∈ kb.rules) : rule.head.Conventional :=
  h rule.head (mem_terms_of_head hr)

theorem body {rule : Rule} (hr : rule ∈ kb.rules) {goal : Term} (hg : goal ∈ rule.body) :
    goal.Conventional :=
  h goal (mem_terms_of_body hr hg)

end Conventional

end KnowledgeBase

end Backchain
