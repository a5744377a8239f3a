import Backchain.Proofs.Names.Translation
import Backchain.Proofs.Search.Provenance

/-!
# A search does not read names

A search compares names and does nothing else with them. So if all symbols, constants and variables
of the query and of the clauses are translated faithfully, it takes the same steps, and all that
comes of it is translated: the answers with their bindings in order, the states, what is cut off and
what is logged.
-/

namespace Backchain

namespace Translation

variable (τ : Translation)

def cutoff (cutoff : Search.Cutoff) : Search.Cutoff := { cutoff with goal := τ.term cutoff.goal }

def state (s : Search.State) : Search.State := ⟨s.entered.map τ.term, s.cutoffs.map τ.cutoff⟩

def clause : Clause → Clause
  | .fact t => .fact (τ.term t)
  | .rule r => .rule (τ.rule r)

def event : Event → Event
  | .clash goal candidate left right =>
    .clash (τ.term goal) (τ.term candidate) (τ.atom left) (τ.atom right)
  | .cutOff goal bound => .cutOff (τ.term goal) bound
  | .reentered goal => .reentered (τ.term goal)
  | .matched goal rule seed => .matched (τ.term goal) (τ.rule rule) (τ.substitution seed)
  | .told clause => .told (τ.clause clause)
  | .answered goal answers cutoffs => .answered (τ.term goal) answers cutoffs

def outcome (outcome : Search.Outcome) : Search.Outcome where
  answers := outcome.answers.map τ.substitution
  state := τ.state outcome.state
  log := outcome.log.map τ.event

end Translation

def KnowledgeBase.symbols (kb : KnowledgeBase) (query : Term) : List String :=
  (query :: kb.terms).map Term.symbol

namespace Search

variable {τ : Translation} {symbols : List String} {atoms : Finset Atom}

def EnteredWithin (symbols : List String) (atoms : Finset Atom) (s : State) : Prop :=
  ∀ goal ∈ s.entered, goal.Within symbols atoms

theorem enteredWithin_invariant (bound : Nat) :
    Invariant bound (Term.Within symbols atoms) fun _ => EnteredWithin symbols atoms where
  enter hg _ hs := List.forall_mem_append.mpr ⟨hs, List.forall_mem_singleton.mpr hg⟩
  leave := id
  cutOff _ _ hs := hs

theorem within_closed {kb : KnowledgeBase} (hkb : ∀ t ∈ kb.terms, t.Within symbols atoms)
    (matching : Matching) :
    Closed kb matching (Term.Within symbols atoms) (Substitution.Over atoms) := by
  have hover : ∀ t ∈ kb.terms, t.Over atoms := fun t ht => (hkb t ht).isOver
  refine closed_over matching hover (fun _ hg => hg.isOver) fun goal hg => ?_
  have hgoal := hg.isOver hover
  obtain ⟨rule, hr, pattern, hp, hi⟩ := hg
  exact ⟨hi.symbol_eq ▸ (hkb pattern (KnowledgeBase.mem_terms_of_body hr hp)).symbol, hgoal⟩

/-- From a translated state, the second run comes to what the first comes to, translated. -/
def Carries (τ : Translation) (I : State → Prop) (run run' : State → Outcome) : Prop :=
  ∀ s, I s → run' (τ.state s) = τ.outcome (run s)

-- ---------------------------------------------------------------------------
-- One step
-- ---------------------------------------------------------------------------

theorem forEach_carries {α β : Type} {I : State → Prop} {A : Substitution → Prop}
    {search : α → State → Outcome} {search' : β → State → Outcome} {f : α → β} {items : List α}
    (hc : ∀ item ∈ items, Confined I A (search item))
    (h : ∀ item ∈ items, Carries τ I (search item) (search' (f item))) :
    Carries τ I (forEach search items) (forEach search' (items.map f)) := by
  induction items with
  | nil => exact fun s _ => rfl
  | cons item items ih =>
    obtain ⟨hitem, hitems⟩ := List.forall_mem_cons.mp hc
    obtain ⟨hfirst, hrest⟩ := List.forall_mem_cons.mp h
    intro s hs
    have hlater := ih hitems hrest _ (hitem s hs).1
    simp only [List.map_cons, forEach, hfirst s hs, Translation.outcome, hlater, List.map_append]

theorem tryFact_confined {I : State → Prop} (matching : Matching) (goal fact : Term) :
    Confined I (fun _ => True) (tryFact matching goal fact) := by
  intro s hs
  unfold tryFact
  split <;> exact ⟨hs, fun _ _ => trivial⟩

section
variable (hτ : τ.Faithful symbols atoms)
include hτ

theorem tryFact_carries {goal fact : Term} (hg : goal.Within symbols atoms)
    (hf : fact.Within symbols atoms) (matching : Matching) :
    Carries τ (EnteredWithin symbols atoms) (tryFact matching goal fact)
      (tryFact matching (τ.term goal) (τ.term fact)) := by
  intro s _
  simp only [tryFact, Translation.unify_term hτ hg hf]
  cases unify matching goal fact with
  | ok answer => rfl
  | error mismatch => cases mismatch <;> rfl

section
variable {I : State → Prop} {sub sub' : Strategy}

theorem extend_carries {goal : Term} (hg : goal.Over atoms) {sofar : Substitution}
    (hs : sofar.Over atoms)
    (hc : Confined I (Substitution.Over atoms) (sub (sofar.apply goal)))
    (h : Carries τ I (sub (sofar.apply goal)) (sub' (τ.term (sofar.apply goal)))) :
    Carries τ I (extend sub goal sofar) (extend sub' (τ.term goal) (τ.substitution sofar)) := by
  intro s hi
  have hfound := h s hi
  rw [Translation.term_apply hτ hs hg] at hfound
  have hanswers : (sub (sofar.apply goal) s).answers.map
        ((τ.substitution sofar).update ∘ τ.substitution) =
      (sub (sofar.apply goal) s).answers.map (τ.substitution ∘ sofar.update) :=
    List.map_congr_left fun found hm =>
      (Translation.substitution_update hτ hs ((hc s hi).2 found hm)).symm
  simp only [extend, hfound, Translation.outcome, List.map_map, hanswers]

theorem proveBody_carries {goals : List Term} (hg : ∀ goal ∈ goals, goal.Over atoms)
    (hc : ∀ goal ∈ goals, ∀ sofar : Substitution, sofar.Over atoms →
      Confined I (Substitution.Over atoms) (sub (sofar.apply goal)))
    (h : ∀ goal ∈ goals, ∀ sofar : Substitution, sofar.Over atoms →
      Carries τ I (sub (sofar.apply goal)) (sub' (τ.term (sofar.apply goal))))
    {sofar : List Substitution} (hs : ∀ s ∈ sofar, s.Over atoms) :
    Carries τ I (proveBody sub goals sofar)
      (proveBody sub' (goals.map τ.term) (sofar.map τ.substitution)) := by
  induction goals generalizing sofar with
  | nil => exact fun s _ => rfl
  | cons goal goals ih =>
    obtain ⟨hgoal, hgoals⟩ := List.forall_mem_cons.mp hg
    obtain ⟨hconf, hconfs⟩ := List.forall_mem_cons.mp hc
    obtain ⟨hcarry, hcarries⟩ := List.forall_mem_cons.mp h
    have hturns : ∀ start ∈ sofar,
        Confined I (Substitution.Over atoms) (extend sub goal start) := fun start hm =>
      extend_confined (fun hs ht => hs.update ht) (hs start hm) (hconf start (hs start hm))
    intro s hi
    obtain ⟨hmid, hanswers⟩ := forEach_confined hturns s hi
    have hfirst := forEach_carries hturns
      (fun start hm => extend_carries hτ hgoal (hs start hm) (hconf start (hs start hm))
        (hcarry start (hs start hm))) s hi
    have hrest := ih hgoals hconfs hcarries hanswers _ hmid
    simp only [List.map_cons, proveBody, hfirst, Translation.outcome, hrest, List.map_append]

theorem tryRule_carries {goal : Term} (hg : goal.Within symbols atoms) {rule : Rule}
    (hr : ∀ t ∈ rule.terms, t.Within symbols atoms)
    (hc : ∀ next, next.Within symbols atoms → Confined I (Substitution.Over atoms) (sub next))
    (h : ∀ next, next.Within symbols atoms → Carries τ I (sub next) (sub' (τ.term next)))
    (matching : Matching) :
    Carries τ I (tryRule sub matching goal rule)
      (tryRule sub' matching (τ.term goal) (τ.rule rule)) := by
  have hhead : rule.head.Within symbols atoms := hr _ List.mem_cons_self
  have hbody : ∀ next ∈ rule.body, next.Within symbols atoms := fun next hn =>
    hr next (List.mem_cons_of_mem _ hn)
  intro s hi
  simp only [tryRule, Translation.rule, Translation.unify_term hτ hg hhead]
  cases hu : unify matching goal rule.head with
  | error mismatch => cases mismatch <;> rfl
  | ok seed =>
    have hseed : seed.Over atoms := unify?_over (unify_eq_ok_iff.mp hu) hg.isOver hhead.isOver
    have hnext : ∀ next ∈ rule.body, ∀ sofar : Substitution, sofar.Over atoms →
        (sofar.apply next).Within symbols atoms := by
      intro next hn sofar hsofar
      have hinstance := hsofar.mapsInto.apply_instanceOver (hbody next hn).isOver
      exact ⟨(hbody next hn).symbol, hinstance.isOver (hbody next hn).isOver⟩
    have hproved := proveBody_carries hτ (fun next hn => (hbody next hn).isOver)
      (fun next hn sofar hsofar => hc _ (hnext next hn sofar hsofar))
      (fun next hn sofar hsofar => h _ (hnext next hn sofar hsofar))
      (List.forall_mem_singleton.mpr hseed) s hi
    simp only [List.map_cons, List.map_nil] at hproved
    simp only [Translation.unifier, hproved, Translation.outcome, List.map_cons, Translation.event,
      Translation.rule]

end

-- ---------------------------------------------------------------------------
-- All steps
-- ---------------------------------------------------------------------------

section
variable {kb : KnowledgeBase} (hkb : ∀ t ∈ kb.terms, t.Within symbols atoms)
include hkb

theorem tryAll_carries {sub sub' : Strategy}
    (hc : ∀ next, next.Within symbols atoms →
      Confined (EnteredWithin symbols atoms) (Substitution.Over atoms) (sub next))
    (h : ∀ next, next.Within symbols atoms →
      Carries τ (EnteredWithin symbols atoms) (sub next) (sub' (τ.term next)))
    (matching : Matching) {goal : Term} (hg : goal.Within symbols atoms) :
    Carries τ (EnteredWithin symbols atoms) (tryAll sub matching kb goal)
      (tryAll sub' matching (τ.knowledge kb) (τ.term goal)) := by
  have hfact : ∀ fact ∈ kb.facts, Confined (EnteredWithin symbols atoms) (fun _ => True)
      (tryFact matching goal fact) := fun fact _ => tryFact_confined matching goal fact
  have hopens := (within_closed hkb matching).opens hg
  intro s hs
  have hfacts := forEach_carries hfact
    (fun fact hf => tryFact_carries hτ hg (hkb fact (KnowledgeBase.mem_terms_of_fact hf)) matching)
    s hs
  have hrules := forEach_carries (fun rule hr => tryRule_confined hopens hc hr)
    (fun rule hr => tryRule_carries hτ hg
      (fun t ht => hkb t (KnowledgeBase.mem_terms_of_rule hr ht)) hc h matching)
    (forEach (tryFact matching goal) kb.facts s).state (forEach_confined hfact s hs).1
  simp only [tryAll, Translation.knowledge, hfacts, Translation.outcome, hrules, List.map_append]

theorem proveWithin_carries {settings : Settings} {levels depth : Nat}
    (hl : settings.depthBound < levels + depth) {goal : Term}
    (hg : goal.Within symbols atoms) :
    Carries τ (EnteredWithin symbols atoms) (proveWithin kb settings levels depth goal)
      (proveWithin (τ.knowledge kb) settings levels depth (τ.term goal)) := by
  have hclosed := within_closed hkb settings.matching
  -- On the levels that are left. Whether a goal was entered is asked of a translated list.
  induction levels generalizing depth goal with
  | zero =>
    intro s _
    simp [proveWithin, Translation.outcome, Translation.state, State.cutOff, Translation.cutoff,
      Translation.event]
  | succ levels ih =>
    intro s hs
    have hmem : τ.term goal ∈ (τ.state s).entered ↔ goal ∈ s.entered :=
      Translation.term_mem_map_iff hτ hs hg
    simp only [proveWithin, hmem]
    split
    · rfl
    · have henter : (τ.state s).enter (τ.term goal) = τ.state (s.enter goal) := by
        simp [Translation.state, State.enter]
      have hentered : EnteredWithin symbols atoms (s.enter goal) :=
        List.forall_mem_append.mpr ⟨hs, List.forall_mem_singleton.mpr hg⟩
      have hsub : ∀ next, next.Within symbols atoms →
          Confined (EnteredWithin symbols atoms) (Substitution.Over atoms)
            (proveWithin kb settings levels (depth + 1) next) := fun next hn =>
        proveWithin_confined hclosed (enteredWithin_invariant _) (by omega) hn
      rw [henter]
      exact tryAll_carries hτ hkb hsub (fun next hn => ih (by omega) hn) settings.matching hg _
        hentered

theorem prove_translated (settings : Settings) {goal : Term} (hg : goal.Within symbols atoms)
    {state : State} (hs : EnteredWithin symbols atoms state) (depth : Nat) :
    prove (τ.knowledge kb) settings (τ.term goal) (τ.state state) depth =
      τ.outcome (prove kb settings goal state depth) :=
  proveWithin_carries hτ hkb (by omega) hg state hs

end

end

/-- If the symbols and the atoms of the query and of the clauses are translated faithfully, the
answers are translated, in the same order and with their bindings in the same order, and so are the
goals that are cut off and the log. -/
theorem solve_translated (kb : KnowledgeBase) (settings : Settings) (query : Term)
    (hτ : τ.Faithful (kb.symbols query) (kb.atoms query)) :
    let found := solve kb settings query
    let found' := solve (τ.knowledge kb) settings (τ.term query)
    found'.value.answers = found.value.answers.map τ.substitution ∧
      found'.value.cutoffs = found.value.cutoffs.map τ.cutoff ∧
      found'.log = found.log.map τ.event := by
  have hkb : ∀ t ∈ kb.terms, t.Within (kb.symbols query) (kb.atoms query) := fun t ht =>
    ⟨List.mem_map_of_mem (List.mem_cons_of_mem _ ht), KnowledgeBase.term_over ht⟩
  have hquery : query.Within (kb.symbols query) (kb.atoms query) :=
    ⟨List.mem_map_of_mem List.mem_cons_self, KnowledgeBase.goal_over⟩
  have hempty : EnteredWithin (kb.symbols query) (kb.atoms query) .empty := nofun
  have h := prove_translated hτ hkb settings hquery hempty 0
  exact ⟨congrArg Outcome.answers h, congrArg (State.cutoffs ∘ Outcome.state) h,
    congrArg Outcome.log h⟩

def rearranged : Translation where
  symbol name := if name = "parent" then "teacher" else name
  const name := if name = "ivo" then "ana" else if name = "ana" then "ivo" else name
  var name := if name = "X" then "Y" else if name = "Y" then "X" else name
  symbol_ne := by
    intro name h
    split
    · decide
    · exact h

theorem solve_kinship_rearranged :
    let query := grandparent (.const "ivo") (.var "W")
    rearranged.Faithful (kinship.symbols query) (kinship.atoms query) ∧
      (solve kinship {} query).value.answers =
        [⟨[("X", .const "ivo"), ("W", .var "Y"), ("Z", .const "ana"), ("Y", .const "luka")]⟩] ∧
      (solve (rearranged.knowledge kinship) {} (rearranged.term query)).value.answers =
        [⟨[("Y", .const "ana"), ("W", .var "X"), ("Z", .const "ivo"), ("X", .const "luka")]⟩] := by
  intro query
  have hτ : rearranged.Faithful (kinship.symbols query) (kinship.atoms query) :=
    ⟨by decide, by decide, by decide⟩
  have hfound : (solve kinship {} query).value.answers =
      [⟨[("X", .const "ivo"), ("W", .var "Y"), ("Z", .const "ana"), ("Y", .const "luka")]⟩] := by
    decide
  refine ⟨hτ, hfound, ?_⟩
  rw [(solve_translated kinship {} query hτ).1, hfound]
  rfl

end Search

end Backchain
