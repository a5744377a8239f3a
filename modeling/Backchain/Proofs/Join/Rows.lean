import Backchain.Proofs.Unification

/-!
# Rows of a join

While the goals of a body are looked up among ground facts, an answer so far is a row: it binds the
variables of the goals that are done to constants that make these goals facts, and it does not bind
a variable of the body that is still to come. A row makes the next goal a pattern in the variables
that are still to come, and each fact that matches the pattern gives a longer row.
-/

namespace Backchain

-- ---------------------------------------------------------------------------
-- Filling in some variables
-- ---------------------------------------------------------------------------

theorem mem_varNamesOf_concat {goals : List Term} {goal : Term} {x : String} :
    x ∈ varNamesOf (goals ++ [goal]) ↔ x ∈ varNamesOf goals ∨ x ∈ goal.varNames := by
  simp [varNamesOf]

def Atom.fill (θ : Valuation) (names : List String) : Atom → Atom
  | .var name => if name ∈ names then .const (θ name) else .var name
  | .const name => .const name

namespace Term

/-- Gives the variables on the list their values and leaves the others. -/
def fill (θ : Valuation) (names : List String) (t : Term) : Term :=
  t.mapArguments (Atom.fill θ names)

variable {θ η : Valuation} {names : List String} {t : Term}

theorem varNames_fill : (t.fill θ names).varNames = t.varNames.filter (· ∉ names) := by
  simp only [varNames, fill, arguments_mapArguments, List.filterMap_map, List.filter_filterMap]
  congr 1
  funext a
  cases a with
  | var name => by_cases h : name ∈ names <;> simp [Atom.fill, Atom.varName?, Option.filter, h]
  | const name => rfl

theorem Linear.fill (h : t.Linear) (θ : Valuation) (names : List String) :
    (t.fill θ names).Linear := by
  rw [Linear, varNames_fill]
  exact h.sublist List.filter_sublist

theorem Conventional.fill (ht : t.Conventional)
    (h : ∀ x ∈ names, (Atom.const (θ x)).Conventional) : (t.fill θ names).Conventional := by
  intro a ha
  obtain ⟨b, hb, rfl⟩ := List.mem_map.mp ha
  cases b with
  | const name => exact ht _ hb
  | var name =>
    by_cases hm : name ∈ names
    · simpa [Atom.fill, hm] using h name hm
    · simpa [Atom.fill, hm] using ht _ hb

theorem fill_congr (h : ∀ x ∈ names, θ x = η x) (t : Term) : t.fill θ names = t.fill η names := by
  apply Term.ext
  · rfl
  · apply List.map_congr_left
    intro a _
    cases a with
    | const name => rfl
    | var name =>
      by_cases hm : name ∈ names
      · simp [Atom.fill, hm, h name hm]
      · simp [Atom.fill, hm]

theorem ground_fill (h : ∀ x ∈ names, η x = θ x) (t : Term) :
    (t.fill θ names).ground η = t.ground η := by
  apply Term.ext
  · rfl
  · simp only [arguments_ground, fill, arguments_mapArguments, List.map_map]
    apply List.map_congr_left
    intro a _
    cases a with
    | const name => rfl
    | var name =>
      by_cases hm : name ∈ names
      · simp [Atom.fill, Atom.ground, hm, h name hm]
      · simp [Atom.fill, Atom.ground, hm]

end Term

-- ---------------------------------------------------------------------------
-- Rows
-- ---------------------------------------------------------------------------

/-- The goals that are done are facts under the valuation. Of the names, the row binds those of
the variables of these goals, to their values. -/
structure Row (facts : List Term) (names : List String) (done : List Term) (θ : Valuation)
    (row : Substitution) : Prop where
  stored : ∀ goal ∈ done, goal.ground θ ∈ facts
  binds : ∀ x ∈ names, row.get? x = if x ∈ varNamesOf done then some (.const (θ x)) else none

namespace Row

variable {facts done : List Term} {names : List String} {θ η : Valuation} {row : Substitution}
  {goal : Term}

theorem agree (h : Row facts names done θ row) (h' : Row facts names done η row)
    (hd : ∀ x ∈ varNamesOf done, x ∈ names) : ∀ x ∈ varNamesOf done, θ x = η x := by
  intro x hx
  have hθ := h.binds x (hd x hx)
  have hη := h'.binds x (hd x hx)
  rw [if_pos hx] at hθ hη
  exact Atom.const.inj (Option.some.inj (hθ.symm.trans hη))

theorem apply_eq (h : Row facts names done θ row) (hg : ∀ x ∈ goal.varNames, x ∈ names) :
    row.apply goal = goal.fill θ (varNamesOf done) := by
  apply Term.ext
  · rfl
  · apply List.map_congr_left
    intro a ha
    cases a with
    | const name => rfl
    | var name =>
      have hname := h.binds name (hg name (Term.mem_varNames.mpr ha))
      by_cases hm : name ∈ varNamesOf done
      · simp [Substitution.applyAtom, Atom.fill, hname, hm]
      · simp [Substitution.applyAtom, Atom.fill, hname, hm]

theorem conventional (h : Row facts names done θ row) (hc : ∀ fact ∈ facts, fact.Conventional) :
    ∀ x ∈ varNamesOf done, (Atom.const (θ x)).Conventional := by
  intro x hx
  obtain ⟨goal, hg, hx⟩ := List.mem_flatMap.mp hx
  exact hc _ (h.stored goal hg) _ (List.mem_map.mpr ⟨_, Term.mem_varNames.mp hx, rfl⟩)

theorem append (h : Row facts names done θ row) (hη : ∀ x ∈ varNamesOf done, η x = θ x)
    (hs : goal.ground η ∈ facts) {found : Substitution} (hp : found.Proper)
    (hb : found.Binds (goal.fill θ (varNamesOf done)).varNames η) :
    Row facts names (done ++ [goal]) η (row.update found) := by
  constructor
  · intro other ho
    rcases List.mem_append.mp ho with ho | ho
    · rw [Term.ground_congr fun x hx => hη x (mem_varNamesOf ho hx)]
      exact h.stored other ho
    · rw [List.mem_singleton.mp ho]
      exact hs
  · intro x hx
    rw [Substitution.get?_update row hp, hb x, h.binds x hx, Term.varNames_fill]
    by_cases hd : x ∈ varNamesOf done
    · simp [mem_varNamesOf_concat, hd, hη x hd]
    · by_cases hg : x ∈ goal.varNames
      · simp [mem_varNamesOf_concat, hd, hg]
      · simp [mem_varNamesOf_concat, hd, hg]

variable (hc : ∀ fact ∈ facts, fact.Conventional) (hgc : goal.Conventional)
include hc hgc

theorem update (h : Row facts names done θ row) (hl : goal.Linear) {fact : Term}
    (hm : fact ∈ facts) (hf : fact.Ground) {found : Substitution}
    (hu : unify? .sameSymbol (goal.fill θ (varNamesOf done)) fact = some found) :
    ∃ η, (∀ x ∈ varNamesOf done, η x = θ x) ∧ goal.ground η = fact ∧
      Row facts names (done ++ [goal]) η (row.update found) := by
  have hpattern : (goal.fill θ (varNamesOf done)).Conventional := hgc.fill (h.conventional hc)
  obtain ⟨ζ, hargs, hbinds⟩ := unify?_ground hu hf (hl.fill θ _) hpattern (hc fact hm)
  -- The pattern says nothing about the variables that are filled in: they keep their values.
  let η : Valuation := fun x => if x ∈ varNamesOf done then θ x else ζ x
  have hη : ∀ x ∈ varNamesOf done, η x = θ x := fun x hx => if_pos hx
  have hηζ : ∀ x ∈ (goal.fill θ (varNamesOf done)).varNames, η x = ζ x := by
    intro x hx
    rw [Term.varNames_fill, List.mem_filter] at hx
    exact if_neg (of_decide_eq_true hx.2)
  have hfact : goal.ground η = fact := by
    rw [← Term.ground_fill hη goal, Term.ground_congr hηζ]
    exact Term.ext ((unify?_eq_some_iff.mp hu).2.1 rfl) hargs
  refine ⟨η, hη, hfact, h.append hη (hfact ▸ hm) (unify?_proper hu) ?_⟩
  intro x
  rw [hbinds x]
  by_cases hx : x ∈ (goal.fill θ (varNamesOf done)).varNames
  · simp [hx, hηζ x hx]
  · simp [hx]

theorem exists_update (h : Row facts names done θ row) (hm : goal.ground θ ∈ facts) :
    ∃ found, unify? .sameSymbol (goal.fill θ (varNamesOf done)) (goal.ground θ) = some found ∧
      Row facts names (done ++ [goal]) θ (row.update found) := by
  have hpattern : (goal.fill θ (varNamesOf done)).Conventional := hgc.fill (h.conventional hc)
  have hinstance : (goal.fill θ (varNamesOf done)).ground θ = goal.ground θ :=
    Term.ground_fill (fun _ _ => rfl) goal
  obtain ⟨found, hu, hbinds⟩ :=
    exists_unify?_ground hpattern (hinstance ▸ hc _ hm) .sameSymbol
  rw [hinstance] at hu
  exact ⟨found, hu, h.append (fun _ _ => rfl) hm (unify?_proper hu) hbinds⟩

end Row

end Backchain
