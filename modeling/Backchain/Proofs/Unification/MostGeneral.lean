import Mathlib.Data.List.Forall2
import Backchain.Proofs.ActiveDomain
import Backchain.Proofs.Unification.Writes

/-!
# Most general unifiers

Where no variable stands twice in the two terms together, no write meets another one: unification
fails only if no mapping of the variables makes the arguments equal, and what it finds makes them
equal when it is applied once. Nothing is bound without need: every other mapping that makes the
arguments equal takes a bound name and its value to the same atom.
-/

namespace Backchain

def Unifies (f : String → Atom) (goal candidate : Term) : Prop :=
  (goal.replace f).arguments = (candidate.replace f).arguments

theorem unifies_iff {f : String → Atom} {goal candidate : Term} :
    Unifies f goal candidate ↔
      goal.arity = candidate.arity ∧
        ∀ pair ∈ goal.arguments.zip candidate.arguments, pair.1.replace f = pair.2.replace f := by
  rw [Unifies, Term.replace, Term.replace, Term.arguments_mapArguments,
    Term.arguments_mapArguments, ← List.forall₂_eq_eq_eq, List.forall₂_map_left_iff,
    List.forall₂_map_right_iff, List.forall₂_iff_zip]
  simp [Term.arity]

theorem Atom.compatible_of_replace_eq {f : String → Atom} {g c : Atom}
    (h : g.replace f = c.replace f) : g.Compatible c := by
  cases g with
  | var x => exact .inr (.inl rfl)
  | const name =>
    cases c with
    | var y => exact .inr (.inr rfl)
    | const other => exact .inl h

theorem Atom.var_eq_of_writes? {g c : Atom} {pair : String × Atom} (h : writes? g c = some pair) :
    g = .var pair.1 ∨ c = .var pair.1 := by
  unfold writes? at h
  split at h
  · obtain ⟨-, hpair⟩ := Option.ite_none_left_eq_some.mp h
    exact .inl (Option.some.inj hpair ▸ rfl)
  · obtain ⟨-, hpair⟩ := Option.ite_none_left_eq_some.mp h
    exact .inr (Option.some.inj hpair ▸ rfl)
  · cases h

theorem Atom.map_eq_of_writes? {f : String → Atom} {g c : Atom} {pair : String × Atom}
    (h : g.replace f = c.replace f) (hw : writes? g c = some pair) :
    f pair.1 = pair.2.replace f := by
  unfold writes? at hw
  split at hw
  · obtain ⟨-, hpair⟩ := Option.ite_none_left_eq_some.mp hw
    exact Option.some.inj hpair ▸ h
  · obtain ⟨-, hpair⟩ := Option.ite_none_left_eq_some.mp hw
    exact Option.some.inj hpair ▸ h.symm
  · cases hw

-- ---------------------------------------------------------------------------
-- No variable twice
-- ---------------------------------------------------------------------------

section Linear
variable {goal candidate : List Atom}

theorem var_mem_of_mem_writes {pair : String × Atom} (h : pair ∈ writes goal candidate) :
    .var pair.1 ∈ goal ++ candidate := by
  obtain ⟨atoms, hatoms, hwrite⟩ := List.mem_filterMap.mp h
  obtain ⟨hg, hc⟩ := List.of_mem_zip hatoms
  rcases Atom.var_eq_of_writes? hwrite with heq | heq
  · exact List.mem_append_left _ (heq ▸ hg)
  · exact List.mem_append_right _ (heq ▸ hc)

theorem get?_bindAll_writes {x : String} (h : .var x ∉ goal ++ candidate) (made : Substitution) :
    (made.bindAll (writes goal candidate)).get? x = made.get? x := by
  refine Substitution.get?_bindAll_of_lookup_eq_none (List.lookup_eq_none_iff.mpr ?_) made
  intro pair hp
  have hne : x ≠ pair.1 := by
    rintro rfl
    exact h (var_mem_of_mem_writes hp)
  simpa using hne

theorem applyAtom_bindAll_writes {a : Atom} (h : ∀ x, a = .var x → .var x ∉ goal ++ candidate)
    (made : Substitution) :
    (made.bindAll (writes goal candidate)).applyAtom a = made.applyAtom a := by
  cases a with
  | var x => rw [Substitution.applyAtom, get?_bindAll_writes (h x rfl), Substitution.applyAtom]
  | const name => rfl

/-- Two atoms whose variables are different and not bound yet are made equal by what they write. -/
theorem applyAtom_writes?_eq {g c : Atom} {made : Substitution} (hcompatible : g.Compatible c)
    (hg : g.Conventional) (hc : c.Conventional) (hne : ∀ x, g = .var x → c ≠ .var x)
    (hmade : ∀ x, g = .var x ∨ c = .var x → made.get? x = none) :
    (made.bindAll (Atom.writes? g c).toList).applyAtom g =
      (made.bindAll (Atom.writes? g c).toList).applyAtom c := by
  cases g with
  | var x =>
    rw [bindAll_writes?_var]
    cases c with
    | var y =>
      have hxy : y ≠ x := by
        rintro rfl
        exact hne y rfl rfl
      simp [Substitution.applyAtom, Substitution.get?_bind, Atom.name, hxy, hxy.symm,
        hmade y (.inr rfl)]
    | const value =>
      have hx : x ≠ value := hg.name_ne hc
      simp [Substitution.applyAtom, Substitution.get?_bind, Atom.name, hx]
  | const name =>
    cases c with
    | var x =>
      have hx : x ≠ name := hc.name_ne hg
      rw [bindAll_writes?_const]
      simp [Substitution.applyAtom, Substitution.get?_bind, Atom.name, hx]
    | const other =>
      rcases hcompatible with heq | hvar | hvar
      · rw [heq]
      · cases hvar
      · cases hvar

theorem applyAtom_eq_of_linear {made : Substitution}
    (hlinear : ((goal ++ candidate).filterMap Atom.varName?).Nodup)
    (hconventional : ∀ a ∈ goal ++ candidate, a.Conventional)
    (hcompatible : ∀ pair ∈ goal.zip candidate, pair.1.Compatible pair.2)
    (hmade : ∀ x, .var x ∈ goal ++ candidate → made.get? x = none) :
    ∀ pair ∈ goal.zip candidate,
      (made.bindAll (writes goal candidate)).applyAtom pair.1 =
        (made.bindAll (writes goal candidate)).applyAtom pair.2 := by
  -- On the pairs of arguments. The first pair writes to its own variables, which no later one has.
  induction goal generalizing candidate made with
  | nil => simp
  | cons g goal ih =>
    cases candidate with
    | nil => simp
    | cons c candidate =>
      have hperm : List.Perm (g :: goal ++ c :: candidate) (g :: c :: (goal ++ candidate)) :=
        List.perm_middle.cons g
      simp only [hperm.mem_iff] at hconventional hmade
      rw [(hperm.filterMap _).nodup_iff, Atom.nodup_varNames_cons_iff,
        Atom.nodup_varNames_cons_iff] at hlinear
      obtain ⟨hg, hc, hlinear⟩ := hlinear
      obtain ⟨hgconv, hcconv, hconventional⟩ : g.Conventional ∧ c.Conventional ∧
          ∀ a ∈ goal ++ candidate, a.Conventional := by
        simpa only [List.forall_mem_cons] using hconventional
      rw [List.zip_cons_cons, List.forall_mem_cons] at hcompatible ⊢
      have hsplit : made.bindAll (writes (g :: goal) (c :: candidate)) =
          (made.bindAll (Atom.writes? g c).toList).bindAll (writes goal candidate) := by
        rw [writes_cons, Substitution.bindAll_append]
      rw [hsplit]
      constructor
      · rw [applyAtom_bindAll_writes fun x hx hm => hg x hx (List.mem_cons_of_mem _ hm),
          applyAtom_bindAll_writes hc]
        refine applyAtom_writes?_eq hcompatible.1 hgconv hcconv ?_ ?_
        · exact fun x hgx hcx => hg x hgx (hcx ▸ List.mem_cons_self)
        · rintro x (rfl | rfl)
          · exact hmade x List.mem_cons_self
          · exact hmade x (List.mem_cons_of_mem _ List.mem_cons_self)
      · refine ih hlinear hconventional hcompatible.2 fun x hx => ?_
        have hfirst : (Atom.writes? g c).toList = writes [g] [c] := by
          rw [writes_cons, writes, List.zip_nil_left, List.filterMap_nil, List.append_nil]
        have hnew : .var x ∉ [g] ++ [c] := by
          intro hm
          rcases List.mem_pair.mp hm with rfl | rfl
          · exact hg x rfl (List.mem_cons_of_mem _ hx)
          · exact hc x rfl hx
        rw [hfirst, get?_bindAll_writes hnew]
        exact hmade x (List.mem_cons_of_mem _ (List.mem_cons_of_mem _ hx))

end Linear

-- ---------------------------------------------------------------------------
-- Unifying two terms
-- ---------------------------------------------------------------------------

section Terms
variable {matching : Matching} {goal candidate : Term} {s : Substitution} {f : String → Atom}

theorem exists_unify?_of_unifies (h : Unifies f goal candidate)
    (hsymbol : matching = .sameSymbol → goal.symbol = candidate.symbol) :
    ∃ s, unify? matching goal candidate = some s := by
  obtain ⟨harity, hpairs⟩ := unifies_iff.mp h
  have hcompatible : ∀ pair ∈ goal.arguments.zip candidate.arguments,
      pair.1.Compatible pair.2 :=
    fun pair hp => Atom.compatible_of_replace_eq (hpairs pair hp)
  exact ⟨_, unify?_eq_some_iff_writes.mpr ⟨⟨harity, hsymbol, hcompatible⟩, rfl⟩⟩

/-- What is found binds a name only as it must, whether or not it makes the arguments equal. -/
theorem map_eq_of_mem_bindings (hs : unify? matching goal candidate = some s)
    (h : Unifies f goal candidate) {pair : String × Atom} (hp : pair ∈ s.bindings) :
    f pair.1 = pair.2.replace f := by
  obtain ⟨before, after, hsplit, -⟩ := (mem_bindings_unify?_iff hs).mp hp
  have hwritten : pair ∈ writes goal.arguments candidate.arguments := by
    rw [hsplit]
    exact List.mem_append_right _ List.mem_cons_self
  obtain ⟨atoms, hatoms, hwrite⟩ := List.mem_filterMap.mp hwritten
  exact Atom.map_eq_of_writes? ((unifies_iff.mp h).2 atoms hatoms) hwrite

theorem replace_applyAtom (s : Substitution) :
    Atom.replace (fun x => s.applyAtom (.var x)) = s.applyAtom := by
  funext a
  cases a <;> rfl

theorem unifies_of_linear (hs : unify? matching goal candidate = some s) (hg : goal.Conventional)
    (hc : candidate.Conventional) (hlinear : (goal.varNames ++ candidate.varNames).Nodup) :
    Unifies (fun x => s.applyAtom (.var x)) goal candidate := by
  obtain ⟨⟨harity, -, hcompatible⟩, rfl⟩ := unify?_eq_some_iff_writes.mp hs
  have hconventional : ∀ a ∈ goal.arguments ++ candidate.arguments, a.Conventional :=
    List.forall_mem_append.mpr ⟨hg, hc⟩
  rw [Term.varNames, Term.varNames, ← List.filterMap_append] at hlinear
  refine unifies_iff.mpr ⟨harity, ?_⟩
  rw [replace_applyAtom]
  exact applyAtom_eq_of_linear hlinear hconventional hcompatible fun _ _ => rfl

end Terms

/-- Where no variable stands twice in two terms that follow the convention, they unify as soon as
some mapping makes their arguments equal. What is found makes them equal when it is applied once,
and every mapping that does so takes a bound name and its value to the same atom. -/
theorem unify?_most_general {matching : Matching} {goal candidate : Term} (hg : goal.Conventional)
    (hc : candidate.Conventional) (hlinear : (goal.varNames ++ candidate.varNames).Nodup)
    (hsymbol : matching = .sameSymbol → goal.symbol = candidate.symbol) :
    ((unify? matching goal candidate).isSome ↔ ∃ f, Unifies f goal candidate) ∧
      ∀ s, unify? matching goal candidate = some s →
        (s.apply goal).arguments = (s.apply candidate).arguments ∧
          ∀ f, Unifies f goal candidate → ∀ pair ∈ s.bindings, f pair.1 = pair.2.replace f := by
  refine ⟨⟨fun hsome => ?_, fun ⟨f, hf⟩ => ?_⟩, fun s hs => ⟨?_, fun f hf pair hp => ?_⟩⟩
  · obtain ⟨s, hs⟩ := Option.isSome_iff_exists.mp hsome
    exact ⟨_, unifies_of_linear hs hg hc hlinear⟩
  · exact Option.isSome_iff_exists.mpr (exists_unify?_of_unifies hf hsymbol)
  · have hunified := unifies_of_linear hs hg hc hlinear
    rw [Unifies, Term.replace, Term.replace, replace_applyAtom] at hunified
    exact hunified
  · exact map_eq_of_mem_bindings hs hf hp

theorem unify?_most_general_of_carries :
    let goal : Term :=
      ⟨"carries", [.var "X", .const "oak", .var "Y", .const "elm"], by decide,
        List.cons_ne_nil _ _⟩
    let candidate : Term :=
      ⟨"carries", [.const "ash", .var "W", .var "Z", .const "elm"], by decide,
        List.cons_ne_nil _ _⟩
    let s : Substitution := ⟨[("X", .const "ash"), ("W", .const "oak"), ("Y", .var "Z")]⟩
    goal.Conventional ∧ candidate.Conventional ∧ (goal.varNames ++ candidate.varNames).Nodup ∧
      unify? .sameSymbol goal candidate = some s ∧ (∃ f, Unifies f goal candidate) ∧
      (s.apply goal).arguments = (s.apply candidate).arguments ∧
      ∀ f, Unifies f goal candidate → ∀ pair ∈ s.bindings, f pair.1 = pair.2.replace f := by
  intro goal candidate s
  have hg : goal.Conventional := by decide +kernel
  have hc : candidate.Conventional := by decide +kernel
  have hlinear : (goal.varNames ++ candidate.varNames).Nodup := by decide
  have hs : unify? .sameSymbol goal candidate = some s := by decide
  have hsymbol : Matching.sameSymbol = .sameSymbol → goal.symbol = candidate.symbol := fun _ => rfl
  obtain ⟨hiff, hfound⟩ := unify?_most_general hg hc hlinear hsymbol
  exact ⟨hg, hc, hlinear, hs, hiff.mp (hs ▸ rfl), hfound s hs⟩

end Backchain
