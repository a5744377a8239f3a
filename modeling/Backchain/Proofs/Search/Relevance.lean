import Backchain.Proofs.Search.Derivation

/-!
# Clauses that a goal leads to

Where symbols have to be the same, terms unify only if they have the same symbol and as many
arguments. So a goal can use no clauses but those with its own pair of symbol and arity, and below
them those with the pairs of the goals in their bodies. A search does not notice whether any other
clause is there, and its log does not either.
-/

namespace Backchain

def Term.signature (t : Term) : String × Nat := (t.symbol, t.arity)

theorem Term.signature_mapArguments (f : Atom → Atom) (t : Term) :
    (t.mapArguments f).signature = t.signature := by
  simp [signature]

namespace KnowledgeBase

/-- The least set of signatures that holds that of the goal and, with the signature of the head of
a rule, those of its body. -/
inductive LeadsTo (kb : KnowledgeBase) (goal : Term) : String × Nat → Prop
  | goal : kb.LeadsTo goal goal.signature
  | body {rule : Rule} {next : Term} : rule ∈ kb.rules → kb.LeadsTo goal rule.head.signature →
      next ∈ rule.body → kb.LeadsTo goal next.signature

def restrict (kb : KnowledgeBase) (keep : String × Nat → Prop) [DecidablePred keep] :
    KnowledgeBase where
  facts := kb.facts.filter (keep ·.signature)
  rules := kb.rules.filter (keep ·.head.signature)

end KnowledgeBase

namespace Search

variable {α : Type}

-- ---------------------------------------------------------------------------
-- Turns that come to nothing
-- ---------------------------------------------------------------------------

def Idle (run : State → Outcome) : Prop := ∀ s, run s = ⟨[], s, []⟩

theorem forEach_filter {search : α → State → Outcome} {p : α → Bool} {items : List α}
    (h : ∀ item ∈ items, p item = false → Idle (search item)) (state : State) :
    forEach search (items.filter p) state = forEach search items state := by
  induction items generalizing state with
  | nil => rfl
  | cons item items ih =>
    have hrest := ih fun other ho => h other (List.mem_cons_of_mem _ ho)
    cases hp : p item with
    | true => simp only [List.filter_cons, hp, if_true, forEach, hrest]
    | false =>
      rw [List.filter_cons, hp, if_neg Bool.false_ne_true, hrest, forEach,
        h item List.mem_cons_self hp state]
      rfl

theorem unify_of_signature_ne {goal candidate : Term} (h : goal.signature ≠ candidate.signature) :
    ∃ mismatch, unify .sameSymbol goal candidate = .error mismatch ∧
      mismatchLog goal candidate mismatch = [] := by
  by_cases ha : goal.arity = candidate.arity
  · have hs : goal.symbol ≠ candidate.symbol := fun hs => h (Prod.ext hs ha)
    exact ⟨.symbol, by simp [unify, ha, hs], rfl⟩
  · exact ⟨.arity, by simp [unify, ha], rfl⟩

theorem tryFact_idle {goal fact : Term} (h : goal.signature ≠ fact.signature) :
    Idle (tryFact .sameSymbol goal fact) := by
  intro s
  obtain ⟨mismatch, hu, hlog⟩ := unify_of_signature_ne h
  simp [tryFact, hu, hlog]

theorem tryRule_idle {goal : Term} {rule : Rule} (h : goal.signature ≠ rule.head.signature)
    (sub : Strategy) : Idle (tryRule sub .sameSymbol goal rule) := by
  intro s
  obtain ⟨mismatch, hu, hlog⟩ := unify_of_signature_ne h
  simp [tryRule, hu, hlog]

-- ---------------------------------------------------------------------------
-- The same sub-goals, the same outcome
-- ---------------------------------------------------------------------------

theorem forEach_congr {search search' : α → State → Outcome} {items : List α}
    (h : ∀ item ∈ items, search item = search' item) :
    forEach search items = forEach search' items := by
  induction items with
  | nil => rfl
  | cons item items ih =>
    funext state
    simp only [forEach, h item List.mem_cons_self, ih fun i hi => h i (List.mem_cons_of_mem _ hi)]

section
variable {sub sub' : Strategy}

theorem proveBody_congr {goals : List Term}
    (h : ∀ goal ∈ goals, ∀ sofar : Substitution, sub (sofar.apply goal) = sub' (sofar.apply goal)) :
    proveBody sub goals = proveBody sub' goals := by
  induction goals with
  | nil => rfl
  | cons goal goals ih =>
    funext sofar state
    have hextend : extend sub goal = extend sub' goal := by
      funext bindings s
      simp only [extend, h goal List.mem_cons_self bindings]
    simp only [proveBody, hextend, ih fun g hg => h g (List.mem_cons_of_mem _ hg)]

theorem tryRule_congr {rule : Rule}
    (h : ∀ goal ∈ rule.body, ∀ sofar : Substitution,
      sub (sofar.apply goal) = sub' (sofar.apply goal)) (matching : Matching) (goal : Term) :
    tryRule sub matching goal rule = tryRule sub' matching goal rule := by
  funext state
  simp only [tryRule, proveBody_congr h]

end

-- ---------------------------------------------------------------------------
-- Searches with fewer clauses
-- ---------------------------------------------------------------------------

section
variable {kb : KnowledgeBase} {keep : String × Nat → Prop} [DecidablePred keep]
  (hbody : ∀ rule ∈ kb.rules, keep rule.head.signature → ∀ goal ∈ rule.body, keep goal.signature)
include hbody

theorem tryAll_restrict {sub sub' : Strategy}
    (h : ∀ goal : Term, keep goal.signature → sub goal = sub' goal) {goal : Term}
    (hg : keep goal.signature) (state : State) :
    tryAll sub .sameSymbol (kb.restrict keep) goal state =
      tryAll sub' .sameSymbol kb goal state := by
  have hne : ∀ {t : Term}, decide (keep t.signature) = false → goal.signature ≠ t.signature :=
    fun hp heq => of_decide_eq_false hp (heq ▸ hg)
  have hfacts : forEach (tryFact .sameSymbol goal) (kb.restrict keep).facts =
      forEach (tryFact .sameSymbol goal) kb.facts :=
    funext (forEach_filter fun _ _ hp => tryFact_idle (hne hp))
  have hkept : ∀ rule ∈ (kb.restrict keep).rules,
      tryRule sub .sameSymbol goal rule = tryRule sub' .sameSymbol goal rule := by
    intro rule hr
    obtain ⟨hr, hkeep⟩ := List.mem_filter.mp hr
    refine tryRule_congr (fun next hn sofar => h _ ?_) _ _
    rw [Substitution.apply, Term.signature_mapArguments]
    exact hbody rule hr (of_decide_eq_true hkeep) next hn
  have hrules : forEach (tryRule sub .sameSymbol goal) (kb.restrict keep).rules =
      forEach (tryRule sub' .sameSymbol goal) kb.rules :=
    (forEach_congr hkept).trans
      (funext (forEach_filter fun _ _ hp => tryRule_idle (hne hp) sub'))
  simp only [tryAll, hfacts, hrules]

theorem proveWithin_restrict {settings : Settings} (hm : settings.matching = .sameSymbol)
    {levels depth : Nat} {goal : Term} (hg : keep goal.signature) :
    proveWithin (kb.restrict keep) settings levels depth goal =
      proveWithin kb settings levels depth goal := by
  induction levels generalizing depth goal with
  | zero => rfl
  | succ levels ih =>
    funext state
    simp only [proveWithin, hm, tryAll_restrict hbody (fun _ => ih) hg]

end

/-- The clauses that the goal does not lead to make no difference to the search. -/
theorem prove_restrict_leadsTo {settings : Settings} (hm : settings.matching = .sameSymbol)
    (kb : KnowledgeBase) (goal : Term) [DecidablePred (kb.LeadsTo goal)] (state : State)
    (depth : Nat) :
    prove (kb.restrict (kb.LeadsTo goal)) settings goal state depth =
      prove kb settings goal state depth := by
  have hbody : ∀ rule ∈ kb.rules, kb.LeadsTo goal rule.head.signature →
      ∀ next ∈ rule.body, kb.LeadsTo goal next.signature := fun _ hr hl _ hn => .body hr hl hn
  exact congrFun (proveWithin_restrict hbody hm .goal) state

def household : KnowledgeBase where
  facts := kinship.facts ++ [⟨"owns", [.const "ivo", .const "boat"], by decide, by decide⟩]
  rules := kinship.rules ++
    [{ head := { parent (.var "X") (.var "Y") with
          arguments := [.var "X"], arguments_ne := List.cons_ne_nil _ _ }
       body := [parent (.var "X") (.var "Y")] },
      { head := unary "sails" (by decide) (.var "X")
        body := [⟨"owns", [.var "X", .const "boat"], by decide, by decide⟩,
          kinship.rules[0].head] }]

theorem leadsTo_household_iff {goal : Term} (hg : goal.signature = ("grandparent", 2))
    (pair : String × Nat) :
    household.LeadsTo goal pair ↔ pair ∈ [("grandparent", 2), ("parent", 2)] := by
  constructor
  · intro h
    induction h with
    | goal => simp [hg]
    | @body rule next hr _ hn ih =>
      have hclosed : ∀ rule ∈ household.rules,
          rule.head.signature ∈ [("grandparent", 2), ("parent", 2)] →
          ∀ next ∈ rule.body, next.signature ∈ [("grandparent", 2), ("parent", 2)] := by decide
      exact hclosed rule hr ih next hn
  · have hgoal : household.LeadsTo goal ("grandparent", 2) := hg ▸ .goal
    have hr : kinship.rules[0] ∈ household.rules := by decide
    simp only [List.mem_cons, List.not_mem_nil, or_false]
    rintro (rfl | rfl)
    · exact hgoal
    · exact .body hr hgoal List.mem_cons_self

theorem prove_grandparent_of_household :
    let goal : Term := ⟨"grandparent", [.const "ivo", .var "W"], by decide, by decide⟩
    let state : State := State.empty.enter (parent (.var "X") (.var "Y"))
    Settings.matching {} = .sameSymbol ∧ (prove kinship {} goal state 1).answers ≠ [] ∧
      prove kinship {} goal state 1 = prove household {} goal state 1 := by
  intro goal state
  have hm : Settings.matching {} = .sameSymbol := rfl
  have hanswers : (prove kinship {} goal state 1).answers ≠ [] := by decide
  let _ : DecidablePred (household.LeadsTo goal) := fun pair =>
    decidable_of_iff' _ (leadsTo_household_iff (by decide) pair)
  have hkept : household.restrict (household.LeadsTo goal) = kinship := by decide
  exact ⟨hm, hanswers, hkept ▸ prove_restrict_leadsTo hm household goal state 1⟩

end Search

end Backchain
