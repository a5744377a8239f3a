import Mathlib.Data.Finset.Filter
import Backchain.Proofs.Search.Provenance

/-!
# The variables of a query

When the variables of a query occur in no clause, they are bound where the query meets a fact or the
head of a rule, each to what stands opposite its last place, and are never seen again: the bindings
that go into a body replace the variables of the rule only, and by atoms of the clauses or constants
of the query. So no sub-goal holds a variable of the query, no answer to one binds such a variable,
and the first binding lasts.
-/

namespace Backchain

def Term.LastAt (t : Term) (x : String) (i : Nat) : Prop :=
  t.arguments[i]? = some (.var x) ∧ ∀ j, i < j → t.arguments[j]? ≠ some (.var x)

/-- Every variable of the query is bound to the atom that the candidate has in its last place. -/
def Substitution.TakesFrom (query candidate : Term) (s : Substitution) : Prop :=
  ∀ x ∈ query.varNames, ∃ i value,
    query.LastAt x i ∧ candidate.arguments[i]? = some value ∧ s.get? x = some value

def KnowledgeBase.atomsBelow (kb : KnowledgeBase) (query : Term) : Finset Atom :=
  (kb.atoms query).filter fun a => ∀ x ∈ query.varNames, a ≠ .var x

-- ---------------------------------------------------------------------------
-- The last place counts
-- ---------------------------------------------------------------------------

theorem exists_last_index {α : Type} {a : α} {items : List α} (h : a ∈ items) :
    ∃ i : Nat, items[i]? = some a ∧ ∀ j, i < j → items[j]? ≠ some a := by
  induction items with
  | nil => cases h
  | cons item items ih =>
    by_cases hrest : a ∈ items
    · obtain ⟨i, hi, hlast⟩ := ih hrest
      refine ⟨i + 1, hi, ?_⟩
      intro j hj
      cases j with
      | zero => cases hj
      | succ j => exact hlast j (Nat.lt_of_succ_lt_succ hj)
    · have ha : item = a := ((List.mem_cons.mp h).resolve_right hrest).symm
      refine ⟨0, congrArg some ha, ?_⟩
      intro j hj hat
      cases j with
      | zero => cases hj
      | succ j => exact hrest (List.mem_of_getElem? hat)

theorem Term.exists_lastAt {t : Term} {x : String} (hx : x ∈ t.varNames) : ∃ i, t.LastAt x i :=
  exists_last_index (mem_varNames.mp hx)

/-- Nothing in the candidate has the name of the variable, so no other place writes to it, and each
of its places does. -/
theorem get?_unifyArguments_of_last {goal candidate : List Atom} {made s : Substitution}
    (h : unifyArguments goal candidate made = .ok s) {x : String}
    (hx : ∀ a ∈ candidate, x ≠ a.name) {i : Nat} (hi : goal[i]? = some (.var x))
    (hlast : ∀ j, i < j → goal[j]? ≠ some (.var x)) {value : Atom}
    (hvalue : candidate[i]? = some value) : s.get? x = some value := by
  -- On the goal, up to the last place. The places before it bind the variable as well, so the
  -- bindings made so far are left open.
  induction goal generalizing candidate made i with
  | nil => cases hi
  | cons g goal ih =>
    cases candidate with
    | nil => cases hvalue
    | cons c candidate =>
      obtain ⟨hc, hcandidate⟩ := List.forall_mem_cons.mp hx
      obtain ⟨next, hstep, hrest⟩ := unifyArguments_cons_eq_ok_iff.mp h
      cases i with
      | succ i =>
        have hlater : ∀ j, i < j → goal[j]? ≠ some (.var x) :=
          fun j hj => hlast (j + 1) (Nat.succ_lt_succ hj)
        exact ih hrest hcandidate hi hlater hvalue
      | zero =>
        obtain rfl := Option.some.inj hi
        obtain rfl := Option.some.inj hvalue
        have hgoal : .var x ∉ goal := by
          intro hm
          obtain ⟨j, hj⟩ := List.mem_iff_getElem?.mp hm
          exact hlast (j + 1) (Nat.succ_pos j) hj
        have hopposite : .var x ∉ candidate := fun hm => hcandidate _ hm rfl
        have hs := (get?_unifyArguments hrest hgoal).resolve_right fun hm => hopposite hm.1
        cases hstep with
        | same => exact absurd rfl hc
        | left _ => simp [hs, Substitution.get?_bind, hc]

-- ---------------------------------------------------------------------------
-- Queries that have no variable in common with the clauses
-- ---------------------------------------------------------------------------

section
variable {kb : KnowledgeBase} {query : Term}
  (hapart : ∀ t ∈ kb.terms, ∀ x ∈ query.varNames, x ∉ t.varNames)

theorem KnowledgeBase.var_not_mem_atomsBelow {x : String} (hx : x ∈ query.varNames) :
    .var x ∉ kb.atomsBelow query :=
  fun hm => (Finset.mem_filter.mp hm).2 x hx rfl

theorem KnowledgeBase.const_mem_atomsBelow {c : String} (hc : .const c ∈ query.arguments) :
    .const c ∈ kb.atomsBelow query :=
  Finset.mem_filter.mpr ⟨goal_over _ hc, fun _ _ => Atom.noConfusion⟩

include hapart

theorem KnowledgeBase.term_over_atomsBelow {t : Term} (ht : t ∈ kb.terms) :
    t.Over (kb.atomsBelow query) := by
  intro a ha
  refine Finset.mem_filter.mpr ⟨term_over ht a ha, ?_⟩
  rintro x hx rfl
  exact hapart t ht x hx (Term.mem_varNames.mpr ha)

theorem KnowledgeBase.name_ne_of_apart (hkb : kb.Conventional) (hq : query.Conventional) {t : Term}
    (ht : t ∈ kb.terms) {x : String} (hx : x ∈ query.varNames) {a : Atom} (ha : a ∈ t.arguments) :
    x ≠ a.name := by
  cases a with
  | const c => exact (hq _ (Term.mem_varNames.mp hx)).name_ne (hkb t ht _ ha)
  | var y =>
    rintro rfl
    exact hapart t ht x hx (Term.mem_varNames.mpr ha)

variable {matching : Matching} {candidate : Term} {seed : Substitution}
  (hc : candidate ∈ kb.terms) (hu : unify? matching query candidate = some seed)
include hc hu

theorem seed_takesFrom (hkb : kb.Conventional) (hq : query.Conventional) :
    seed.TakesFrom query candidate := by
  intro x hx
  obtain ⟨harity, -, hs⟩ := unify?_eq_some_iff.mp hu
  obtain ⟨i, hi, hlast⟩ := Term.exists_lastAt hx
  obtain ⟨hlt, -⟩ := List.getElem?_eq_some_iff.mp hi
  have hvalue : candidate.arguments[i]? = some (candidate.arguments[i]) :=
    List.getElem?_eq_getElem (Nat.lt_of_lt_of_eq hlt harity)
  have hnames : ∀ a ∈ candidate.arguments, x ≠ a.name :=
    fun a ha => KnowledgeBase.name_ne_of_apart hapart hkb hq hc hx ha
  exact ⟨i, _, ⟨hi, hlast⟩, hvalue, get?_unifyArguments_of_last hs hnames hi hlast hvalue⟩

theorem seed_mapsInto : seed.MapsInto (kb.atomsBelow query) :=
  unifyArguments_mapsInto (unify?_eq_some_iff.mp hu).2.2
    (fun _ hm => KnowledgeBase.const_mem_atomsBelow hm)
    (KnowledgeBase.term_over_atomsBelow hapart hc) (.empty _)

end

/-- An answer to a sub-goal leaves the variables of the query alone. -/
theorem Substitution.TakesFrom.update {kb : KnowledgeBase} {query candidate : Term}
    {s t : Substitution} (hs : s.TakesFrom query candidate) (ht : t.Over (kb.atomsBelow query)) :
    (s.update t).TakesFrom query candidate := by
  intro x hx
  obtain ⟨i, value, hlast, hvalue, hget⟩ := hs x hx
  have hfree : t.get? x = none := ht.get?_eq_none (KnowledgeBase.var_not_mem_atomsBelow hx)
  exact ⟨i, value, hlast, hvalue, (get?_update_of_get?_eq_none hfree).trans hget⟩

namespace Search

structure AnswersApart (kb : KnowledgeBase) (matching : Matching) (query : Term)
    (s : Substitution) : Prop where
  mapsInto : s.MapsInto (kb.atomsBelow query)
  takes : ∃ candidate ∈ kb.facts ++ kb.rules.map Rule.head,
    (∃ seed, unify? matching query candidate = some seed) ∧ s.TakesFrom query candidate

theorem opens_apart {kb : KnowledgeBase} {query : Term} (matching : Matching)
    (hkb : kb.Conventional) (hq : query.Conventional)
    (hapart : ∀ t ∈ kb.terms, ∀ x ∈ query.varNames, x ∉ t.varNames) :
    Opens kb matching query (kb.BodyInstance (kb.atomsBelow query))
      (Substitution.Over (kb.atomsBelow query)) (AnswersApart kb matching query) where
  fact {fact _} hf hu :=
    have ht : fact ∈ kb.terms := KnowledgeBase.mem_terms_of_fact hf
    ⟨seed_mapsInto hapart ht hu, fact, List.mem_append_left _ hf, ⟨_, hu⟩,
      seed_takesFrom hapart ht hu hkb hq⟩
  head {rule _} hr hu :=
    have ht : rule.head ∈ kb.terms := KnowledgeBase.mem_terms_of_head hr
    ⟨seed_mapsInto hapart ht hu, rule.head,
      List.mem_append_right _ (List.mem_map.mpr ⟨rule, hr, rfl⟩), ⟨_, hu⟩,
      seed_takesFrom hapart ht hu hkb hq⟩
  update hs ht := by
    obtain ⟨candidate, hc, hu, htakes⟩ := hs.takes
    exact ⟨hs.mapsInto.update ht, candidate, hc, hu, htakes.update ht⟩
  body {rule pattern _} hr hp hs :=
    have hover := KnowledgeBase.term_over_atomsBelow hapart (KnowledgeBase.mem_terms_of_body hr hp)
    ⟨rule, hr, pattern, hp, hs.mapsInto.apply_instanceOver hover⟩

/-- No goal that is entered or cut off below the query holds a variable of it. All answers bind all
variables of the query, to what a fact or a head that the query unifies with has in their last
places. -/
theorem solve_keeps_query_variables {kb : KnowledgeBase} (settings : Settings) {query : Term}
    (hkb : kb.Conventional) (hq : query.Conventional)
    (hapart : ∀ t ∈ kb.terms, ∀ x ∈ query.varNames, x ∉ t.varNames) :
    let found := (solve kb settings query).value
    (∃ below, (prove kb settings query .empty 0).state.entered = query :: below ∧
      ∀ goal ∈ below ++ found.cutoffs.map Cutoff.goal,
        ∀ x ∈ query.varNames, x ∉ goal.varNames) ∧
      ∀ answer ∈ found.answers, ∃ candidate ∈ kb.facts ++ kb.rules.map Rule.head,
        (∃ seed, unify? settings.matching query candidate = some seed) ∧
        answer.TakesFrom query candidate := by
  have hover : ∀ t ∈ kb.terms, t.Over (kb.atomsBelow query) :=
    fun _ ht => KnowledgeBase.term_over_atomsBelow hapart ht
  obtain ⟨⟨below, hentered, hbelow⟩, hanswers⟩ :=
    prove_allBelow (bodyInstance_closed settings.matching hover)
      (opens_apart settings.matching hkb hq hapart)
  refine ⟨⟨below, hentered, ?_⟩, fun answer ha => (hanswers answer ha).takes⟩
  intro goal hm x hx hin
  have hvar := (hbelow goal hm).isOver hover _ (Term.mem_varNames.mp hin)
  exact KnowledgeBase.var_not_mem_atomsBelow hx hvar

/-- A variable that stands in the query twice takes what stands opposite its second place. That the
rule's own `Y` becomes `luka` later does not matter. -/
theorem grandparent_keeps_query_variables :
    let query := grandparent (.var "W") (.var "W")
    let answer : Substitution :=
      ⟨[("W", .var "Y"), ("X", .const "ivo"), ("Z", .const "ana"), ("Y", .const "luka")]⟩
    let below := [parent (.var "X") (.var "Z"), parent (.const "ana") (.var "Y"),
      parent (.const "luka") (.var "Y")]
    kinship.Conventional ∧ query.Conventional ∧
      (∀ t ∈ kinship.terms, ∀ x ∈ query.varNames, x ∉ t.varNames) ∧
      (prove kinship {} query .empty 0).state.entered = query :: below ∧
      "W" ∉ (parent (.const "ana") (.var "Y")).varNames ∧
      answer ∈ (solve kinship {} query).value.answers ∧ answer.get? "W" = some (.var "Y") ∧
      ∃ candidate ∈ kinship.facts ++ kinship.rules.map Rule.head,
        (∃ seed, unify? .sameSymbol query candidate = some seed) ∧
        answer.TakesFrom query candidate := by
  intro query answer below
  have hkb : kinship.Conventional := by decide +kernel
  have hq : query.Conventional := by decide +kernel
  have hapart : ∀ t ∈ kinship.terms, ∀ x ∈ query.varNames, x ∉ t.varNames := by decide
  have hentered : (prove kinship {} query .empty 0).state.entered = query :: below := by decide
  have ha : answer ∈ (solve kinship {} query).value.answers := by decide
  obtain ⟨⟨below', hentered', hbelow⟩, hanswers⟩ := solve_keeps_query_variables {} hkb hq hapart
  obtain rfl : below = below' := List.tail_eq_of_cons_eq (hentered.symm.trans hentered')
  have hm : parent (.const "ana") (.var "Y") ∈ below := List.mem_cons_of_mem _ List.mem_cons_self
  have hfree := hbelow _ (List.mem_append_left _ hm) "W" List.mem_cons_self
  exact ⟨hkb, hq, hapart, hentered, hfree, ha, rfl, hanswers answer ha⟩

end Search

end Backchain
