import Mathlib.Data.List.Basic
import Backchain.Proofs.Search.Derivation
import Backchain.Proofs.Unification

/-!
# Answers of joins are sound

Where only facts answer the goals of a body, an answer so far binds the variables of its rule to
constants. What is bound stays out of the goals that are still to come, so no later fact changes it:
each goal becomes the fact that answered it, and the head keeps the constants that the query gave
it. The variables of the query point at the head and take no part in this.
-/

namespace Backchain

namespace Substitution

def Settles (s : Substitution) (names : List String) : Prop :=
  ∀ x ∈ names, ∀ value, s.get? x = some value → value.isVariable = false ∧ value.Conventional

def KeptBy (names : List String) (s t : Substitution) : Prop :=
  ∀ x ∈ names, s.get? x ≠ none → t.get? x = s.get? x

variable {names : List String} {row found s t : Substitution} {goal fact : Term}

theorem KeptBy.refl (names : List String) (s : Substitution) : KeptBy names s s :=
  fun _ _ _ => rfl

theorem KeptBy.trans {u : Substitution} (h : KeptBy names s t) (h' : KeptBy names t u) :
    KeptBy names s u := by
  intro x hx hs
  rw [h' x hx (h x hx hs ▸ hs), h x hx hs]

theorem get?_ne_none_of_ground (h : (s.apply goal).Ground) {x : String} (hx : x ∈ goal.varNames) :
    s.get? x ≠ none := by
  intro hnone
  have hsame : s.applyAtom (.var x) = .var x := by simp [applyAtom, hnone]
  have hin : .var x ∈ (s.apply goal).arguments :=
    List.mem_map.mpr ⟨.var x, Term.mem_varNames.mp hx, hsame⟩
  exact h.not_mem_varNames x (Term.mem_varNames.mpr hin)

theorem KeptBy.apply_eq (h : KeptBy names s t) (hg : (s.apply goal).Ground)
    (hn : ∀ x ∈ goal.varNames, x ∈ names) : t.apply goal = s.apply goal := by
  apply Term.ext
  · rfl
  · apply List.map_congr_left
    intro a ha
    cases a with
    | const name => rfl
    | var x =>
      have hx := Term.mem_varNames.mpr ha
      simp only [applyAtom, h x (hn x hx) (get?_ne_none_of_ground hg hx)]

-- ---------------------------------------------------------------------------
-- A goal that a fact answers
-- ---------------------------------------------------------------------------

variable (hrow : row.Settles names) (hn : ∀ x ∈ goal.varNames, x ∈ names)
include hrow hn

theorem Settles.varNames_apply :
    (row.apply goal).varNames = goal.varNames.filter fun x => (row.get? x).isNone := by
  simp only [Term.varNames, arguments_apply, List.filterMap_map, List.filter_filterMap]
  apply List.filterMap_congr
  intro a ha
  cases a with
  | const name => rfl
  | var x =>
    cases hget : row.get? x with
    | none => simp [applyAtom, Atom.varName?, Option.filter, hget]
    | some value =>
      have hvalue := (hrow x (hn x (Term.mem_varNames.mpr ha)) value hget).1
      cases value with
      | var y => cases hvalue
      | const c => simp [applyAtom, Atom.varName?, Option.filter, hget]

theorem Settles.conventional_apply (hg : goal.Conventional) : (row.apply goal).Conventional := by
  intro a ha
  obtain ⟨b, hb, rfl⟩ := List.mem_map.mp ha
  cases b with
  | const name => exact hg _ hb
  | var x =>
    cases hget : row.get? x with
    | none => simpa [applyAtom, hget] using hg _ hb
    | some value =>
      simpa [applyAtom, hget] using (hrow x (hn x (Term.mem_varNames.mpr hb)) value hget).2

theorem Settles.mem_varNames_apply {x : String} :
    x ∈ (row.apply goal).varNames ↔ x ∈ goal.varNames ∧ row.get? x = none := by
  rw [hrow.varNames_apply hn, List.mem_filter, Option.isNone_iff_eq_none]

variable (hl : goal.Linear) (hg : goal.Conventional) (hf : fact.Ground) (hfc : fact.Conventional)
  (hu : unify? .sameSymbol (row.apply goal) fact = some found)
include hl hg hf hfc hu

/-- The fact binds the variables that the row has left open, and no others. -/
theorem Settles.exists_get?_update : ∃ θ : Valuation, (row.apply goal).ground θ = fact ∧
    ∀ x, (row.update found).get? x =
      (row.get? x).or (if x ∈ goal.varNames then some (.const (θ x)) else none) := by
  have hopen : (row.apply goal).Linear := by
    rw [Term.Linear, hrow.varNames_apply hn]
    exact hl.sublist List.filter_sublist
  obtain ⟨θ, hargs, hbinds⟩ := unify?_ground hu hf hopen (hrow.conventional_apply hn hg) hfc
  refine ⟨θ, Term.ext ((unify?_eq_some_iff.mp hu).2.1 rfl) hargs, fun x => ?_⟩
  rw [Substitution.get?_update row (unify?_proper hu), hbinds x]
  simp only [hrow.mem_varNames_apply hn]
  cases row.get? x <;> simp

theorem Settles.update_fact :
    KeptBy names row (row.update found) ∧ (row.update found).apply goal = fact ∧
      (row.update found).Settles names := by
  obtain ⟨θ, hfact, hget⟩ := hrow.exists_get?_update hn hl hg hf hfc hu
  refine ⟨fun x _ hx => ?_, ?_, fun x hx value hv => ?_⟩
  · rw [hget, Option.or_of_isSome (Option.isSome_iff_ne_none.mpr hx)]
  · rw [← hfact]
    refine Term.ext rfl ?_
    rw [Term.arguments_ground, arguments_apply, arguments_apply, List.map_map]
    apply List.map_congr_left
    intro a ha
    cases a with
    | const name => rfl
    | var x =>
      have hx := Term.mem_varNames.mpr ha
      cases hrx : row.get? x with
      | none => simp [applyAtom, hget, hrx, hx, Atom.ground]
      | some value =>
        have hvalue := (hrow x (hn x hx) value hrx).1
        simp [applyAtom, hget, hrx, Atom.ground_eq_self hvalue]
  · rw [hget] at hv
    cases hrx : row.get? x with
    | some old => exact hrow x hx value (by simpa [hrx] using hv)
    | none =>
      rw [hrx, Option.none_or] at hv
      split at hv
      · rename_i hin
        obtain rfl := Option.some.inj hv
        have hopen := (hrow.mem_varNames_apply hn).mpr ⟨hin, hrx⟩
        exact ⟨rfl, Term.conventional_value (hfact ▸ hfc) hopen⟩
      · cases hv

end Substitution

-- ---------------------------------------------------------------------------
-- What a rule starts from
-- ---------------------------------------------------------------------------

section
variable {goal candidate : List Atom} {made s : Substitution}

theorem applyAtom_unifyArguments (h : unifyArguments goal candidate made = .ok s)
    (hl : (candidate.filterMap Atom.varName?).Nodup)
    (ha : ∀ x, .var x ∈ goal → .var x ∉ candidate)
    (hc : ∀ x c, .var x ∈ candidate → Atom.const c ∈ goal → x ≠ c) {i : Nat} {c : String} {a : Atom}
    (hg : goal[i]? = some (Atom.const c)) (hi : candidate[i]? = some a) :
    s.applyAtom a = .const c := by
  induction goal generalizing candidate made i with
  | nil => cases hg
  | cons g goal ih =>
    cases candidate with
    | nil => cases hi
    | cons b candidate =>
      obtain ⟨next, hstep, hrest⟩ := unifyArguments_cons_eq_ok_iff.mp h
      cases i with
      | succ i =>
        simp only [List.getElem?_cons_succ] at hg hi
        exact ih hrest (hl.sublist ((List.sublist_cons_self b candidate).filterMap _))
          (fun x hx hm => ha x (List.mem_cons_of_mem _ hx) (List.mem_cons_of_mem _ hm))
          (fun x d hx hd => hc x d (List.mem_cons_of_mem _ hx) (List.mem_cons_of_mem _ hd)) hg hi
      | zero =>
        obtain rfl := Option.some.inj hg
        obtain rfl := Option.some.inj hi
        cases hstep with
        | same => rfl
        | right _ y =>
          have hy : .var y ∉ candidate := by
            simp only [Atom.varName?, List.filterMap_cons, List.nodup_cons] at hl
            exact fun hm => hl.1 (List.mem_filterMap.mpr ⟨_, hm, rfl⟩)
          have hgoal : .var y ∉ goal :=
            fun hm => ha y (List.mem_cons_of_mem _ hm) List.mem_cons_self
          have hne : y ≠ c := hc y c List.mem_cons_self List.mem_cons_self
          have hs := (get?_unifyArguments hrest hgoal).resolve_right fun hm => hy hm.1
          simp [Substitution.applyAtom, hs, Substitution.get?_bind, Atom.name, hne]

end

section
variable {matching : Matching} {query head : Term} {seed : Substitution}
  (hu : unify? matching query head = some seed) (hq : query.Conventional)
include hu hq

theorem seed_settles {names : List String} (ha : ∀ x ∈ query.varNames, x ∉ names) :
    seed.Settles names := by
  intro x hx value hv
  have hgoal : .var x ∉ query.arguments := fun hm => ha x (Term.mem_varNames.mpr hm) hx
  rcases get?_unifyArguments (unify?_eq_some_iff.mp hu).2.2 hgoal with hs | ⟨-, c, hc, hs⟩
  · rw [hv] at hs
    cases hs
  · obtain rfl := Option.some.inj (hv.symm.trans hs)
    exact ⟨rfl, hq _ hc⟩

theorem seed_apply_head (hl : head.Linear) (hh : head.Conventional)
    (ha : ∀ x ∈ query.varNames, x ∉ head.varNames) {i : Nat} {c : String}
    (hi : query.arguments[i]? = some (.const c)) :
    (seed.apply head).arguments[i]? = some (.const c) := by
  obtain ⟨harity, -, hs⟩ := unify?_eq_some_iff.mp hu
  obtain ⟨hlt, -⟩ := List.getElem?_eq_some_iff.mp hi
  have hlt : i < head.arguments.length := Nat.lt_of_lt_of_eq hlt harity
  have hb : head.arguments[i]? = some (head.arguments[i]) := List.getElem?_eq_getElem hlt
  have hapart : ∀ x, .var x ∈ query.arguments → .var x ∉ head.arguments :=
    fun x hx hm => ha x (Term.mem_varNames.mpr hx) (Term.mem_varNames.mpr hm)
  have hnames : ∀ x c, .var x ∈ head.arguments → .const c ∈ query.arguments → x ≠ c :=
    fun x c hx hc => (hh _ hx).name_ne (hq _ hc)
  rw [Substitution.arguments_apply, List.getElem?_map, hb, Option.map_some,
    applyAtom_unifyArguments hs hl hapart hnames hi hb]

end

-- ---------------------------------------------------------------------------
-- Whole bodies
-- ---------------------------------------------------------------------------

structure KnowledgeBase.Joining (kb : KnowledgeBase) : Prop where
  facts_ground : ∀ fact ∈ kb.facts, fact.Ground
  heads_linear : ∀ rule ∈ kb.rules, rule.head.Linear
  bodies_linear : ∀ rule ∈ kb.rules, ∀ goal ∈ rule.body, goal.Linear
  bodies_stored : ∀ rule ∈ kb.rules, ∀ goal ∈ rule.body, ∀ other ∈ kb.rules,
    goal.symbol ≠ other.head.symbol

namespace Search

section
variable {kb : KnowledgeBase} (hj : kb.Joining)
include hj

theorem exists_fact_of_derivation {rule : Rule} (hr : rule ∈ kb.rules) {goal : Term}
    (hg : goal ∈ rule.body) {sofar found : Substitution}
    (child : Derivation kb .sameSymbol (sofar.apply goal) found) :
    ∃ fact ∈ kb.facts, unify? .sameSymbol (sofar.apply goal) fact = some found := by
  cases child with
  | fact fact hf hu => exact ⟨fact, hf, hu⟩
  | rule other seed ho hu _ =>
    exact absurd ((unify?_eq_some_iff.mp hu).2.1 rfl) (hj.bodies_stored rule hr goal hg other ho)

variable (hc : kb.Conventional)
include hc

/-- On the goals that are to come. Those that are done are facts, and what is bound is kept. -/
theorem BodyDerivation.stores {rule : Rule} (hr : rule ∈ kb.rules) {done goals : List Term}
    {sofar answer : Substitution} (body : BodyDerivation kb .sameSymbol goals sofar answer)
    (hbody : rule.body = done ++ goals) (hsofar : sofar.Settles rule.varNames)
    (hdone : ∀ goal ∈ done, sofar.apply goal ∈ kb.facts) :
    (∀ goal ∈ rule.body, answer.apply goal ∈ kb.facts) ∧
      Substitution.KeptBy rule.varNames sofar answer := by
  induction goals generalizing done sofar with
  | nil =>
    cases body
    rw [hbody, List.append_nil]
    exact ⟨hdone, .refl _ _⟩
  | cons goal goals ih =>
    cases body with
    | cons found child rest =>
      have hin : ∀ other ∈ done ++ [goal], other ∈ rule.body := by
        intro other ho
        rw [hbody, List.append_cons]
        exact List.mem_append_left _ ho
      have hvars : ∀ other ∈ done ++ [goal], ∀ x ∈ other.varNames, x ∈ rule.varNames :=
        fun other ho x hx => mem_varNamesOf (List.mem_cons_of_mem _ (hin other ho)) hx
      have hgoal : goal ∈ done ++ [goal] := by simp
      obtain ⟨fact, hf, hu⟩ := exists_fact_of_derivation hj hr (hin goal hgoal) child
      obtain ⟨hkept, hfact, hsettles⟩ := hsofar.update_fact (hvars goal hgoal)
        (hj.bodies_linear rule hr goal (hin goal hgoal)) (hc.body hr (hin goal hgoal))
        (hj.facts_ground fact hf) (hc.fact hf) hu
      have hstored : ∀ other ∈ done ++ [goal], (sofar.update found).apply other ∈ kb.facts := by
        intro other ho
        rcases List.mem_append.mp ho with hd | hg
        · have hground := hj.facts_ground _ (hdone other hd)
          rw [hkept.apply_eq hground (hvars other ho)]
          exact hdone other hd
        · rw [List.mem_singleton.mp hg, hfact]
          exact hf
      obtain ⟨hall, hlast⟩ := ih rest (by rw [hbody, List.append_cons]) hsettles hstored
      exact ⟨hall, hkept.trans hlast⟩

/-- An answer is that of a fact, or it makes all goals of some rule facts, and the head of that rule
has the constants of the query in their places. -/
theorem answer_joins_facts {settings : Settings} (hm : settings.matching = .sameSymbol)
    {query : Term} (hq : query.Conventional)
    (hapart : ∀ t ∈ kb.terms, ∀ x ∈ query.varNames, x ∉ t.varNames) {answer : Substitution}
    (ha : answer ∈ (solve kb settings query).value.answers) :
    (∃ fact ∈ kb.facts, unify? .sameSymbol query fact = some answer) ∨
      ∃ rule ∈ kb.rules, (∃ seed, unify? .sameSymbol query rule.head = some seed) ∧
        (∀ goal ∈ rule.body, answer.apply goal ∈ kb.facts) ∧
        ∀ (i : Nat) (c : String), query.arguments[i]? = some (.const c) →
          (answer.apply rule.head).arguments[i]? = some (.const c) := by
  obtain ⟨tree, -⟩ := (prove_justifies kb settings 0).derives query .empty answer ha
  rw [hm] at tree
  cases tree with
  | fact fact hf hu => exact .inl ⟨fact, hf, hu⟩
  | rule rule seed hr hu body =>
    have hrule : ∀ t ∈ rule.terms, t ∈ kb.terms := fun t ht =>
      List.mem_append_right _ (List.mem_flatMap.mpr ⟨rule, hr, ht⟩)
    have hnames : ∀ x ∈ query.varNames, x ∉ rule.varNames := by
      intro x hx hm
      obtain ⟨t, ht, hxt⟩ := List.mem_flatMap.mp hm
      exact hapart t (hrule t ht) x hx hxt
    have hhead : ∀ x ∈ query.varNames, x ∉ rule.head.varNames :=
      hapart _ (hrule _ List.mem_cons_self)
    obtain ⟨hstored, hkept⟩ := BodyDerivation.stores hj hc hr body (List.nil_append _).symm
      (seed_settles hu hq hnames) fun _ hg => absurd hg List.not_mem_nil
    refine .inr ⟨rule, hr, ⟨seed, hu⟩, hstored, fun i c hi => ?_⟩
    have hseed := seed_apply_head hu hq (hj.heads_linear rule hr) (hc.head hr) hhead hi
    rw [Substitution.arguments_apply, List.getElem?_map] at hseed ⊢
    obtain ⟨a, hia, hsa⟩ := Option.map_eq_some_iff.mp hseed
    rw [hia, Option.map_some]
    cases a with
    | const d => exact congrArg some hsa
    | var y =>
      have hbound : seed.get? y ≠ none := by
        intro hnone
        simp [Substitution.applyAtom, hnone] at hsa
      have hy : y ∈ rule.varNames :=
        mem_varNamesOf List.mem_cons_self (Term.mem_varNames.mpr (List.mem_of_getElem? hia))
      rw [← hsa]
      simp only [Substitution.applyAtom, hkept y hy hbound]

end

theorem joining_kinship : kinship.Joining where
  facts_ground := by decide
  heads_linear := by decide
  bodies_linear := by decide
  bodies_stored := by decide

theorem grandparent_joins_facts :
    let query : Term := ⟨"grandparent", [.const "ivo", .var "W"], by decide, by decide⟩
    let answer : Substitution :=
      ⟨[("X", .const "ivo"), ("W", .var "Y"), ("Z", .const "ana"), ("Y", .const "luka")]⟩
    kinship.Joining ∧ kinship.Conventional ∧ Settings.matching {} = .sameSymbol ∧
      query.Conventional ∧ (∀ t ∈ kinship.terms, ∀ x ∈ query.varNames, x ∉ t.varNames) ∧
      answer ∈ (solve kinship {} query).value.answers ∧
      ∃ rule ∈ kinship.rules, (∃ seed, unify? .sameSymbol query rule.head = some seed) ∧
        (∀ goal ∈ rule.body, answer.apply goal ∈ kinship.facts) ∧
        ∀ (i : Nat) (c : String), query.arguments[i]? = some (.const c) →
          (answer.apply rule.head).arguments[i]? = some (.const c) := by
  intro query answer
  have hc : kinship.Conventional := by decide +kernel
  have hq : query.Conventional := by decide +kernel
  have hapart : ∀ t ∈ kinship.terms, ∀ x ∈ query.varNames, x ∉ t.varNames := by decide
  have ha : answer ∈ (solve kinship {} query).value.answers := by decide
  have hrule : ¬ ∃ fact ∈ kinship.facts, unify? .sameSymbol query fact = some answer := by decide
  exact ⟨joining_kinship, hc, rfl, hq, hapart, ha,
    (answer_joins_facts joining_kinship hc rfl hq hapart ha).resolve_left hrule⟩

end Search

end Backchain
