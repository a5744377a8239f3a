import Backchain.Proofs.Join.Rows

/-!
# Valuations that survive the guard

The patterns that the goals of a body are looked up with are entered like any other goal, and a
pattern that comes up again is passed over. So a valuation is followed up only if its pattern is
new at each goal. It is not if another valuation that was followed up so far led to the pattern
before: at a goal further left, or at the same goal by facts that come earlier.
-/

namespace Backchain

-- ---------------------------------------------------------------------------
-- The order in which valuations are met
-- ---------------------------------------------------------------------------

def places (facts goals : List Term) (θ : Valuation) : List Nat :=
  goals.map fun goal => facts.idxOf (goal.ground θ)

section
variable {facts goals : List Term} {θ η : Valuation}

theorem places_concat (goal : Term) :
    places facts (goals ++ [goal]) θ = places facts goals θ ++ [facts.idxOf (goal.ground θ)] := by
  simp [places]

theorem length_places : (places facts goals θ).length = goals.length := by
  simp [places]

theorem places_congr (h : ∀ x ∈ varNamesOf goals, θ x = η x) :
    places facts goals θ = places facts goals η := by
  apply List.map_congr_left
  intro goal hg
  rw [Term.ground_congr fun x hx => h x (mem_varNamesOf hg hx)]

end

theorem append_lt_append {ks ls : List Nat} (hlen : ks.length = ls.length) (h : ks < ls)
    (k l : List Nat) : ks ++ k < ls ++ l := by
  induction ks generalizing ls with
  | nil =>
    rw [List.length_eq_zero_iff.mp hlen.symm] at h
    exact absurd h (List.lt_irrefl _)
  | cons a ks ih =>
    cases ls with
    | nil => cases hlen
    | cons b ls =>
      simp only [List.cons_append, List.cons_lt_cons_iff] at h ⊢
      rcases h with h | ⟨hab, h⟩
      · exact .inl h
      · exact .inr ⟨hab, ih (Nat.succ.inj hlen) h⟩

theorem append_singleton_lt (ks : List Nat) {k l : Nat} (h : k < l) : ks ++ [k] < ks ++ [l] := by
  induction ks with
  | nil => simpa [List.cons_lt_cons_iff] using h
  | cons a ks ih => exact List.cons_lt_cons_iff.mpr (.inr ⟨rfl, ih⟩)

theorem idxOf_lt_idxOf {facts before after : List Term} {fact goal : Term}
    (h : facts = before ++ goal :: after) (hf : fact ∈ before) (hg : goal ∉ before) :
    facts.idxOf fact < facts.idxOf goal := by
  rw [h, List.idxOf_append, List.idxOf_append, if_pos hf, if_neg hg]
  exact Nat.lt_of_lt_of_le (List.idxOf_lt_length_of_mem hf) (Nat.le_add_left _ _)

/-- Goals are done from left to right, each for all rows, and the rows come in the order of the
facts. -/
def Precedes (facts done : List Term) (θ : Valuation) (done' : List Term) (θ' : Valuation) : Prop :=
  done.length < done'.length ∨ done = done' ∧ places facts done θ < places facts done' θ'

-- ---------------------------------------------------------------------------
-- Survivors
-- ---------------------------------------------------------------------------

/-- Each goal becomes a fact, and its pattern is new there: no valuation that survives the goals
further left of a goal gives that goal the same pattern before. -/
def Survives (facts goals : List Term) (θ : Valuation) : Prop :=
  ∀ done goal rest, goals = done ++ goal :: rest →
    goal.ground θ ∈ facts ∧
      ∀ done' goal' rest' η, (h : goals = done' ++ goal' :: rest') → Survives facts done' η →
        goal'.fill η (varNamesOf done') = goal.fill θ (varNamesOf done) →
        ¬ Precedes facts done' η done θ
termination_by goals.length
decreasing_by
  rw [h]
  simp

def Sought (facts goals : List Term) (pattern : Term) : Prop :=
  ∃ done goal rest θ, goals = done ++ goal :: rest ∧ Survives facts done θ ∧
    goal.fill θ (varNamesOf done) = pattern

section
variable {facts goals : List Term} {goal : Term} {θ η : Valuation}

theorem survives_nil (facts : List Term) (θ : Valuation) : Survives facts [] θ := by
  rw [Survives]
  intro done goal rest h
  cases done <;> cases h

theorem not_sought_nil (facts : List Term) (pattern : Term) : ¬ Sought facts [] pattern := by
  rintro ⟨done, goal, rest, θ, h, -, -⟩
  cases done <;> cases h

theorem concat_eq_append_cons {done rest : List Term} {other : Term}
    (h : goals ++ [goal] = done ++ other :: rest) :
    (done = goals ∧ other = goal ∧ rest = []) ∨
      ∃ rest', rest = rest' ++ [goal] ∧ goals = done ++ other :: rest' := by
  rcases List.eq_nil_or_concat rest with rfl | ⟨rest', last, rfl⟩
  · obtain ⟨hd, ho⟩ := List.append_inj' h rfl
    exact .inl ⟨hd.symm, (List.cons.inj ho).1.symm, rfl⟩
  · replace h : goals ++ [goal] = (done ++ other :: rest') ++ [last] := by simpa using h
    obtain ⟨hd, hlast⟩ := List.append_inj' h rfl
    exact .inr ⟨rest', by simpa using hlast.symm, hd⟩

theorem sought_concat {pattern : Term} :
    Sought facts (goals ++ [goal]) pattern ↔
      Sought facts goals pattern ∨
        ∃ θ, Survives facts goals θ ∧ goal.fill θ (varNamesOf goals) = pattern := by
  constructor
  · rintro ⟨done, other, rest, θ, h, hs, hp⟩
    rcases concat_eq_append_cons h with ⟨rfl, rfl, -⟩ | ⟨rest', -, h⟩
    · exact .inr ⟨θ, hs, hp⟩
    · exact .inl ⟨done, other, rest', θ, h, hs, hp⟩
  · rintro (⟨done, other, rest, θ, rfl, hs, hp⟩ | ⟨θ, hs, hp⟩)
    · exact ⟨done, other, rest ++ [goal], θ, by simp, hs, hp⟩
    · exact ⟨goals, goal, [], θ, rfl, hs, hp⟩

theorem survives_concat :
    Survives facts (goals ++ [goal]) θ ↔
      Survives facts goals θ ∧ goal.ground θ ∈ facts ∧
        ¬ Sought facts goals (goal.fill θ (varNamesOf goals)) ∧
        ∀ η, Survives facts goals η →
          goal.fill η (varNamesOf goals) = goal.fill θ (varNamesOf goals) →
          ¬ places facts goals η < places facts goals θ := by
  constructor
  · intro h
    rw [Survives] at h
    obtain ⟨hm, hlast⟩ := h goals goal [] rfl
    refine ⟨?_, hm, ?_, ?_⟩
    · rw [Survives]
      rintro done other rest rfl
      obtain ⟨hm, hother⟩ := h done other (rest ++ [goal]) (by simp)
      refine ⟨hm, fun done' goal' rest' η hd => hother done' goal' (rest' ++ [goal]) η ?_⟩
      simp [hd]
    · rintro ⟨done, other, rest, η, rfl, hs, hp⟩
      exact hlast done other (rest ++ [goal]) η (by simp) hs hp (.inl (by simp))
    · exact fun η hs hp hlt => hlast goals goal [] η rfl hs hp (.inr ⟨rfl, hlt⟩)
  · rintro ⟨hs, hm, hsought, hfirst⟩
    rw [Survives]
    intro done other rest h
    rcases concat_eq_append_cons h with ⟨rfl, rfl, rfl⟩ | ⟨rest, rfl, rfl⟩
    · refine ⟨hm, ?_⟩
      intro done' goal' rest' η h' hs' hp
      rcases concat_eq_append_cons h' with ⟨rfl, rfl, -⟩ | ⟨rest', -, h'⟩
      · rintro (hlt | ⟨-, hlt⟩)
        · exact Nat.lt_irrefl _ hlt
        · exact hfirst η hs' hp hlt
      · exact absurd ⟨done', goal', rest', η, h', hs', hp⟩ hsought
    · rw [Survives] at hs
      obtain ⟨hm, hother⟩ := hs done other rest rfl
      refine ⟨hm, ?_⟩
      intro done' goal' rest' η h' hs' hp
      rcases concat_eq_append_cons h' with ⟨rfl, -, -⟩ | ⟨rest', -, h'⟩
      -- The last goal comes after the one in question.
      · rintro (hlt | ⟨hd, -⟩)
        · exact absurd hlt (Nat.not_lt.mpr (by simp))
        · exact absurd (congrArg List.length hd) (by simp)
      · exact hother done' goal' rest' η h' hs' hp

theorem Survives.congr (h : Survives facts goals θ) (heq : ∀ x ∈ varNamesOf goals, θ x = η x) :
    Survives facts goals η := by
  rw [Survives] at h ⊢
  rintro done goal rest rfl
  obtain ⟨hm, hfirst⟩ := h done goal rest rfl
  have hdone : ∀ x ∈ varNamesOf done, θ x = η x := by
    intro x hx
    obtain ⟨other, ho, hx⟩ := List.mem_flatMap.mp hx
    exact heq x (mem_varNamesOf (List.mem_append_left _ ho) hx)
  have hgoal : goal.ground θ = goal.ground η :=
    Term.ground_congr fun x hx => heq x (mem_varNamesOf (by simp) hx)
  refine ⟨hgoal ▸ hm, ?_⟩
  intro done' goal' rest' ζ h' hs hp hlt
  refine hfirst done' goal' rest' ζ h' hs (hp.trans (Term.fill_congr hdone goal).symm) ?_
  simpa only [Precedes, places_congr hdone] using hlt

end

end Backchain
