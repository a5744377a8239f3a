import Backchain.Proofs.Bindings

/-!
# Laws of unification

Unification goes through the arguments pair by pair, so what unifying a pair of atoms keeps holds of
the whole. Where one of two terms is ground, the other is a pattern for it. Unification then finds the
valuation that makes the pattern the ground term, and binds the variables of the pattern to their
values, on whichever side the pattern stands. A pattern with a variable that stands in it twice
may unify without being matched.
-/

namespace Backchain

theorem unify?_eq_some_iff {matching : Matching} {goal candidate : Term} {s : Substitution} :
    unify? matching goal candidate = some s ↔
      goal.arity = candidate.arity ∧
        (matching = .sameSymbol → goal.symbol = candidate.symbol) ∧
        unifyArguments goal.arguments candidate.arguments .empty = .ok s := by
  rw [← unify_eq_ok_iff, unify]
  split
  · rename_i ha
    simp [ha]
  · rename_i ha
    split
    · rename_i hs
      simp [hs]
    · rename_i hs
      have harity : goal.arity = candidate.arity := by simpa using ha
      have hsymbol : matching = .sameSymbol → goal.symbol = candidate.symbol := by simpa using hs
      exact ⟨fun h => ⟨harity, hsymbol, h⟩, fun h => h.2.2⟩

-- ---------------------------------------------------------------------------
-- Atom by atom
-- ---------------------------------------------------------------------------

/-- Unifying an atom of the goal with the one opposite turns the first bindings into the second. -/
inductive UnifiesAtoms (made : Substitution) : Atom → Atom → Substitution → Prop
  | same (a : Atom) : UnifiesAtoms made a a made
  | left {x : String} {c : Atom} : .var x ≠ c → UnifiesAtoms made (.var x) c (made.bind x c)
  | right (name y : String) : UnifiesAtoms made (.const name) (.var y) (made.bind y (.const name))

section
variable {goal candidate : List Atom} {made s : Substitution}

theorem unifyArguments_cons_eq_ok_iff {g c : Atom} :
    unifyArguments (g :: goal) (c :: candidate) made = .ok s ↔
      ∃ next, UnifiesAtoms made g c next ∧ unifyArguments goal candidate next = .ok s := by
  constructor
  · intro h
    simp only [unifyArguments] at h
    split at h
    · rename_i heq
      exact ⟨made, heq ▸ .same g, h⟩
    · rename_i hne
      split at h
      · exact ⟨_, .left hne, h⟩
      · exact ⟨_, .right _ _, h⟩
      · cases h
  · rintro ⟨next, hstep, h⟩
    cases hstep with
    | same => simpa [unifyArguments] using h
    | left hne => simpa [unifyArguments, hne] using h
    | right => simpa [unifyArguments] using h

/-- What unifying each pair of atoms keeps, unifying all arguments keeps. -/
theorem unifyArguments_keeps {P : Substitution → Prop}
    (h : unifyArguments goal candidate made = .ok s)
    (hstep : ∀ {g c made next}, g ∈ goal → c ∈ candidate → UnifiesAtoms made g c next →
      P made → P next)
    (hm : P made) : P s := by
  induction goal generalizing candidate made with
  | nil => cases h; exact hm
  | cons g goal ih =>
    cases candidate with
    | nil => cases h; exact hm
    | cons c candidate =>
      obtain ⟨next, hnext, hrest⟩ := unifyArguments_cons_eq_ok_iff.mp h
      refine ih hrest (fun hg hc => ?_) (hstep List.mem_cons_self List.mem_cons_self hnext hm)
      exact hstep (List.mem_cons_of_mem _ hg) (List.mem_cons_of_mem _ hc)

theorem unifyArguments_proper (h : unifyArguments goal candidate made = .ok s) (hm : made.Proper) :
    s.Proper := by
  refine unifyArguments_keeps h (fun _ _ hstep hm => ?_) hm
  cases hstep with
  | same => exact hm
  | left _ => exact hm.bind _ _
  | right name y => exact hm.bind _ _

theorem get?_unifyArguments (h : unifyArguments goal candidate made = .ok s) {x : String}
    (hx : .var x ∉ goal) : s.get? x = made.get? x ∨
      Atom.var x ∈ candidate ∧ ∃ c, Atom.const c ∈ goal ∧ s.get? x = some (.const c) := by
  refine unifyArguments_keeps (P := fun t => t.get? x = made.get? x ∨
    Atom.var x ∈ candidate ∧ ∃ c, Atom.const c ∈ goal ∧ t.get? x = some (.const c)) h ?_ (.inl rfl)
  intro g c before next hg hc hstep hbefore
  cases hstep with
  | same => exact hbefore
  | @left y _ _ =>
    have hne : x ≠ y := by
      rintro rfl
      exact hx hg
    simpa [Substitution.get?_bind, hne] using hbefore
  | right name y =>
    rw [Substitution.get?_bind]
    split
    · rename_i hy
      exact .inr ⟨hy.1 ▸ hc, name, hg, rfl⟩
    · exact hbefore

end

theorem unify?_proper {matching : Matching} {goal candidate : Term} {s : Substitution}
    (h : unify? matching goal candidate = some s) : s.Proper :=
  unifyArguments_proper (unify?_eq_some_iff.mp h).2.2 .empty

-- ---------------------------------------------------------------------------
-- A goal of variables only
-- ---------------------------------------------------------------------------

theorem exists_unifyArguments_of_variables {goal : List Atom}
    (h : ∀ a ∈ goal, a.isVariable = true) (candidate : List Atom) (made : Substitution) :
    ∃ s, unifyArguments goal candidate made = .ok s ∧
      ∀ x, .var x ∉ goal → s.get? x = made.get? x := by
  induction goal generalizing candidate made with
  | nil => exact ⟨made, rfl, fun _ _ => rfl⟩
  | cons g goal ih =>
    obtain ⟨hg, hgoal⟩ := List.forall_mem_cons.mp h
    cases candidate with
    | nil => exact ⟨made, rfl, fun _ _ => rfl⟩
    | cons c candidate =>
      cases g with
      | const name => cases hg
      | var name =>
        by_cases heq : .var name = c
        · obtain ⟨s, hs, hget⟩ := ih hgoal candidate made
          refine ⟨s, by rw [unifyArguments, if_pos heq, hs], ?_⟩
          exact fun x hx => hget x fun hm => hx (List.mem_cons_of_mem _ hm)
        · obtain ⟨s, hs, hget⟩ := ih hgoal candidate (made.bind name c)
          refine ⟨s, by rw [unifyArguments, if_neg heq, hs], ?_⟩
          intro x hx
          have hne : x ≠ name := by
            rintro rfl
            exact hx List.mem_cons_self
          rw [hget x fun hm => hx (List.mem_cons_of_mem _ hm), Substitution.get?_bind]
          simp [hne]

theorem exists_unify?_of_variables {goal candidate : Term}
    (h : ∀ a ∈ goal.arguments, a.isVariable = true) (ha : goal.arity = candidate.arity)
    (hs : goal.symbol = candidate.symbol) (matching : Matching) :
    ∃ s, unify? matching goal candidate = some s := by
  obtain ⟨s, hu, -⟩ := exists_unifyArguments_of_variables h candidate.arguments .empty
  exact ⟨s, unify?_eq_some_iff.mpr ⟨ha, fun _ => hs, hu⟩⟩

theorem get?_eq_none_of_unify? {matching : Matching} {goal candidate : Term} {s : Substitution}
    (hu : unify? matching goal candidate = some s) (h : ∀ a ∈ goal.arguments, a.isVariable = true)
    {x : String} (hx : x ∉ goal.varNames) : s.get? x = none := by
  obtain ⟨s', hu', hget⟩ := exists_unifyArguments_of_variables h candidate.arguments .empty
  have heq := (unify?_eq_some_iff.mp hu).2.2
  rw [hu'] at heq
  exact Except.ok.inj heq ▸ hget x fun hm => hx (Term.mem_varNames.mpr hm)

-- ---------------------------------------------------------------------------
-- The pattern on the left
-- ---------------------------------------------------------------------------

theorem unifyArguments_ground {θ : Valuation} {pattern : List Atom}
    (h : ∀ x, .var x ∈ pattern → x ≠ θ x) (made : Substitution) :
    ∃ s, unifyArguments pattern (pattern.map (Atom.ground θ)) made = .ok s ∧
      ∀ x, s.get? x = if .var x ∈ pattern then some (.const (θ x)) else made.get? x := by
  induction pattern generalizing made with
  | nil => exact ⟨made, rfl, by simp⟩
  | cons a pattern ih =>
    have hrest : ∀ x, .var x ∈ pattern → x ≠ θ x := fun x hx => h x (List.mem_cons_of_mem _ hx)
    cases a with
    | const name =>
      obtain ⟨s, hs, hget⟩ := ih hrest made
      refine ⟨s, ?_, ?_⟩
      · simpa [unifyArguments, Atom.ground] using hs
      · intro x
        rw [hget x]
        simp
    | var name =>
      have hname : name ≠ θ name := h name List.mem_cons_self
      obtain ⟨s, hs, hget⟩ := ih hrest (made.bind name (.const (θ name)))
      refine ⟨s, ?_, ?_⟩
      · simpa [unifyArguments, Atom.ground] using hs
      · intro x
        rw [hget x, Substitution.get?_bind]
        by_cases hx : x = name
        · subst hx
          simp [Atom.name, hname]
        · simp [hx]

/-- Unifying succeeds for matching patterns only, if no variable stands in the pattern twice. -/
theorem exists_map_ground_eq {pattern atoms : List Atom} {made s : Substitution}
    (h : unifyArguments pattern atoms made = .ok s) (hlen : pattern.length = atoms.length)
    (hground : ∀ a ∈ atoms, a.isVariable = false)
    (hlinear : (pattern.filterMap Atom.varName?).Nodup) :
    ∃ θ, pattern.map (Atom.ground θ) = atoms := by
  induction pattern generalizing atoms made with
  | nil => exact ⟨id, (List.length_eq_zero_iff.mp hlen.symm).symm⟩
  | cons a pattern ih =>
    cases atoms with
    | nil => cases hlen
    | cons c atoms =>
      obtain ⟨hc, hatoms⟩ := List.forall_mem_cons.mp hground
      obtain ⟨hfirst, hrest⟩ := Atom.nodup_varNames_cons_iff.mp hlinear
      replace hlen : pattern.length = atoms.length := Nat.succ.inj hlen
      cases c with
      | var y => cases hc
      | const value =>
        cases a with
        | const name =>
          simp only [unifyArguments] at h
          split at h
          · rename_i heq
            obtain ⟨θ, hθ⟩ := ih h hlen hatoms hrest
            exact ⟨θ, by rw [List.map_cons, hθ, heq]; rfl⟩
          · cases h
        | var name =>
          simp only [unifyArguments, reduceCtorEq, if_false] at h
          obtain ⟨θ, hθ⟩ := ih h hlen hatoms hrest
          refine ⟨fun x => if x = name then value else θ x, ?_⟩
          rw [List.map_cons, ← hθ]
          congr 1
          · simp [Atom.ground]
          · apply List.map_congr_left
            intro b hb
            cases b with
            | const other => rfl
            | var other =>
              have hne : other ≠ name := by
                rintro rfl
                exact hfirst other rfl hb
              simp [Atom.ground, hne]

theorem exists_unify?_ground {goal : Term} {θ : Valuation} (hg : goal.Conventional)
    (hi : (goal.ground θ).Conventional) (matching : Matching) :
    ∃ s, unify? matching goal (goal.ground θ) = some s ∧ s.Binds goal.varNames θ := by
  have hmoves : ∀ x, .var x ∈ goal.arguments → x ≠ θ x := by
    intro x hx
    exact (hg _ hx).name_ne (hi _ (List.mem_map.mpr ⟨_, hx, rfl⟩))
  obtain ⟨s, hs, hget⟩ := unifyArguments_ground hmoves .empty
  refine ⟨s, unify?_eq_some_iff.mpr ⟨?_, fun _ => rfl, hs⟩, ?_⟩
  · simp [Term.arity]
  · intro x
    rw [hget x]
    simp [Term.mem_varNames]

theorem unify?_ground {matching : Matching} {goal fact : Term} {s : Substitution}
    (h : unify? matching goal fact = some s) (hf : fact.Ground) (hl : goal.Linear)
    (hg : goal.Conventional) (hfc : fact.Conventional) :
    ∃ θ, (goal.ground θ).arguments = fact.arguments ∧ s.Binds goal.varNames θ := by
  obtain ⟨ha, -, hs⟩ := unify?_eq_some_iff.mp h
  obtain ⟨θ, hθ⟩ := exists_map_ground_eq hs ha (Term.ground_iff.mp hf) hl
  refine ⟨θ, hθ, ?_⟩
  have hi : (goal.ground θ).Conventional := fun a hm => hfc a (hθ ▸ hm)
  obtain ⟨s', hs', hbinds⟩ := exists_unify?_ground hg hi .anySymbol
  have heq : unifyArguments goal.arguments fact.arguments .empty = .ok s' :=
    hθ ▸ (unify?_eq_some_iff.mp hs').2.2
  rw [hs] at heq
  exact Except.ok.inj heq ▸ hbinds

-- ---------------------------------------------------------------------------
-- The pattern on the right
-- ---------------------------------------------------------------------------

theorem unifyArguments_comm {goal : List Atom} (hground : ∀ a ∈ goal, a.isVariable = false)
    (candidate : List Atom) (made : Substitution) :
    (unifyArguments goal candidate made).toOption =
      (unifyArguments candidate goal made).toOption := by
  induction goal generalizing candidate made with
  | nil => cases candidate <;> rfl
  | cons g goal ih =>
    obtain ⟨hg, hgoal⟩ := List.forall_mem_cons.mp hground
    cases candidate with
    | nil => rfl
    | cons c candidate =>
      cases g with
      | var name => cases hg
      | const name =>
        cases c with
        | var other =>
          simpa [unifyArguments] using ih hgoal candidate (made.bind other (.const name))
        | const other =>
          by_cases heq : name = other
          · simpa [unifyArguments, heq] using ih hgoal candidate made
          · simp [unifyArguments, heq, Ne.symm heq, Except.toOption]

theorem unify?_comm {goal : Term} (hg : goal.Ground) (matching : Matching) (candidate : Term) :
    unify? matching goal candidate = unify? matching candidate goal := by
  have hcomm := unifyArguments_comm (Term.ground_iff.mp hg) candidate.arguments .empty
  simp only [unify?, unify, ne_comm (a := goal.arity), ne_comm (a := goal.symbol)]
  split
  · rfl
  · split
    · rfl
    · exact hcomm

-- ---------------------------------------------------------------------------
-- A ground goal
-- ---------------------------------------------------------------------------

theorem eq_of_unify?_ground {goal fact : Term} {s : Substitution}
    (h : unify? .sameSymbol goal fact = some s) (hg : goal.Ground) (hf : fact.Ground) :
    goal = fact := by
  obtain ⟨ha, hsymbol, hs⟩ := unify?_eq_some_iff.mp h
  obtain ⟨θ, hθ⟩ := exists_map_ground_eq hs ha (Term.ground_iff.mp hf) hg.linear
  apply Term.ext
  · exact hsymbol rfl
  · rw [← hθ, ← Term.arguments_ground, Term.ground_eq_self hg]

theorem exists_instance_of_unify? {goal pattern : Term} {s : Substitution}
    (h : unify? .sameSymbol goal pattern = some s) (hg : goal.Ground) (hl : pattern.Linear)
    (hgc : goal.Conventional) (hpc : pattern.Conventional) :
    ∃ θ, pattern.ground θ = goal ∧ s.Binds pattern.varNames θ := by
  have hsymbol := (unify?_eq_some_iff.mp h).2.1 rfl
  rw [unify?_comm hg] at h
  obtain ⟨θ, hargs, hbinds⟩ := unify?_ground h hg hl hpc hgc
  exact ⟨θ, Term.ext hsymbol.symm hargs, hbinds⟩

theorem exists_unify?_instance {pattern : Term} {θ : Valuation} (hpc : pattern.Conventional)
    (hi : (pattern.ground θ).Conventional) (matching : Matching) :
    ∃ s, unify? matching (pattern.ground θ) pattern = some s ∧ s.Binds pattern.varNames θ := by
  rw [unify?_comm (Term.ground_ground θ pattern)]
  exact exists_unify?_ground hpc hi matching

end Backchain
