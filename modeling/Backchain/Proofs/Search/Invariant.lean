import Backchain.Search.BackwardChaining

/-!
# Invariants of a search

The goals that a search comes to are made from its answers, and its answers from the goals that they
answer. So take a set of goals and a set of answers that the clauses do not lead out of, and a
condition on states that is kept when a goal of the set is entered or cut off. A search for a goal
of the set then stays within all three. A query need not be of the set itself, nor need its answers,
as long as the clauses lead from it to goals of the set.
-/

namespace Backchain.Search

variable {α : Type} {kb : KnowledgeBase} {matching : Matching}

/-- From a state that meets the condition, the run leads to one that does, with answers of the set
only. -/
def Confined (I : State → Prop) (A : Substitution → Prop) (run : State → Outcome) : Prop :=
  ∀ s, I s → I (run s).state ∧ ∀ answer ∈ (run s).answers, A answer

/-- The clauses lead from the goals to the answers, and from these back to the goals. -/
structure Closed (kb : KnowledgeBase) (matching : Matching) (G : Term → Prop)
    (A : Substitution → Prop) : Prop where
  fact : ∀ {fact goal answer}, fact ∈ kb.facts → G goal →
    unify? matching goal fact = some answer → A answer
  head : ∀ {rule goal seed}, rule ∈ kb.rules → G goal →
    unify? matching goal rule.head = some seed → A seed
  update : ∀ {s t}, A s → A t → A (s.update t)
  body : ∀ {rule goal} {s : Substitution}, rule ∈ kb.rules → goal ∈ rule.body → A s →
    G (s.apply goal)

/-- The clauses lead from one goal to the answers `B`, and from these to goals of the set `G`, whose
answers are of the set `A`. -/
structure Opens (kb : KnowledgeBase) (matching : Matching) (goal : Term) (G : Term → Prop)
    (A B : Substitution → Prop) : Prop where
  fact : ∀ {fact answer}, fact ∈ kb.facts → unify? matching goal fact = some answer → B answer
  head : ∀ {rule seed}, rule ∈ kb.rules → unify? matching goal rule.head = some seed → B seed
  update : ∀ {s t}, B s → A t → B (s.update t)
  body : ∀ {rule next} {s : Substitution}, rule ∈ kb.rules → next ∈ rule.body → B s →
    G (s.apply next)

theorem Closed.opens {G : Term → Prop} {A : Substitution → Prop} (hc : Closed kb matching G A)
    {goal : Term} (hg : G goal) : Opens kb matching goal G A A where
  fact hf hu := hc.fact hf hg hu
  head hr hu := hc.head hr hg hu
  update := hc.update
  body := hc.body

/-- A condition on the states at each depth. To enter a goal at some depth leads to the states of
the sub-goals, one level deeper, and when they are done with, the search is back at its depth. -/
structure Invariant (bound : Nat) (G : Term → Prop) (I : Nat → State → Prop) : Prop where
  enter : ∀ {goal depth s}, G goal → goal ∉ s.entered → I depth s → I (depth + 1) (s.enter goal)
  leave : ∀ {depth s}, I (depth + 1) s → I depth s
  cutOff : ∀ {goal depth s}, G goal → bound < depth → I depth s →
    I depth (s.cutOff ⟨goal, depth, bound⟩)

section
variable {I : State → Prop} {A B : Substitution → Prop} {sub : Strategy}

theorem forEach_confined {search : α → State → Outcome} {items : List α}
    (h : ∀ item ∈ items, Confined I A (search item)) : Confined I A (forEach search items) := by
  induction items with
  | nil => exact fun s hs => ⟨hs, nofun⟩
  | cons item items ih =>
    intro s hs
    obtain ⟨hfirst, ha⟩ := h item List.mem_cons_self s hs
    obtain ⟨hrest, ha'⟩ := ih (fun i hi => h i (List.mem_cons_of_mem _ hi)) _ hfirst
    exact ⟨hrest, List.forall_mem_append.mpr ⟨ha, ha'⟩⟩

theorem extend_confined (hu : ∀ {s t}, B s → A t → B (s.update t)) {goal : Term}
    {sofar : Substitution} (hsofar : B sofar) (h : Confined I A (sub (sofar.apply goal))) :
    Confined I B (extend sub goal sofar) := by
  intro s hs
  obtain ⟨hstate, hfound⟩ := h s hs
  exact ⟨hstate, List.forall_mem_map.mpr fun found hf => hu hsofar (hfound found hf)⟩

theorem proveBody_confined (hu : ∀ {s t}, B s → A t → B (s.update t)) {goals : List Term}
    (h : ∀ goal ∈ goals, ∀ sofar : Substitution, B sofar → Confined I A (sub (sofar.apply goal)))
    {sofar : List Substitution} (hsofar : ∀ s ∈ sofar, B s) :
    Confined I B (proveBody sub goals sofar) := by
  induction goals generalizing sofar with
  | nil => exact fun s hs => ⟨hs, hsofar⟩
  | cons goal goals ih =>
    intro s hs
    have hturn : ∀ start ∈ sofar, Confined I B (extend sub goal start) := fun start hm =>
      extend_confined hu (hsofar start hm) (h goal List.mem_cons_self start (hsofar start hm))
    obtain ⟨hfirst, ha⟩ := forEach_confined hturn s hs
    exact ih (fun g hg => h g (List.mem_cons_of_mem _ hg)) ha _ hfirst

end

section
variable {I : State → Prop} {G : Term → Prop} {A B : Substitution → Prop} {sub : Strategy}
  {goal : Term} (ho : Opens kb matching goal G A B) (h : ∀ next, G next → Confined I A (sub next))
include ho h

theorem tryRule_confined {rule : Rule} (hr : rule ∈ kb.rules) :
    Confined I B (tryRule sub matching goal rule) := by
  intro s hs
  unfold tryRule
  cases hu : unify matching goal rule.head with
  | error mismatch => exact ⟨hs, nofun⟩
  | ok seed =>
    have hseed : B seed := ho.head hr (unify_eq_ok_iff.mp hu)
    have hbody : ∀ next ∈ rule.body, ∀ sofar : Substitution, B sofar →
        Confined I A (sub (sofar.apply next)) :=
      fun next hn sofar hsofar => h _ (ho.body hr hn hsofar)
    exact proveBody_confined ho.update hbody (List.forall_mem_singleton.mpr hseed) s hs

theorem tryAll_confined : Confined I B (tryAll sub matching kb goal) := by
  intro s hs
  simp only [tryAll, answers_tryFacts, state_tryFacts]
  obtain ⟨hstate, hrules⟩ := forEach_confined (fun rule hr => tryRule_confined ho h hr) s hs
  refine ⟨hstate, List.forall_mem_append.mpr ⟨?_, hrules⟩⟩
  intro answer ha
  obtain ⟨fact, hf, hu⟩ := List.mem_filterMap.mp ha
  exact ho.fact hf hu

end

section
variable {settings : Settings} {G : Term → Prop} {A : Substitution → Prop}
  {I : Nat → State → Prop} (hc : Closed kb settings.matching G A)
  (hi : Invariant settings.depthBound G I)
include hc hi

theorem proveWithin_confined {levels depth : Nat} (hl : settings.depthBound < levels + depth)
    {goal : Term} (hg : G goal) :
    Confined (I depth) A (proveWithin kb settings levels depth goal) := by
  induction levels generalizing depth goal with
  | zero => exact fun s hs => ⟨hi.cutOff hg (by omega) hs, nofun⟩
  | succ levels ih =>
    intro s hs
    simp only [proveWithin]
    split
    · exact ⟨hs, nofun⟩
    · rename_i hgoal
      have hsub : ∀ other, G other →
          Confined (I (depth + 1)) A (proveWithin kb settings levels (depth + 1) other) :=
        fun other ho => ih (by omega) ho
      obtain ⟨hstate, ha⟩ :=
        tryAll_confined (hc.opens hg) hsub (s.enter goal) (hi.enter hg hgoal hs)
      exact ⟨hi.leave hstate, ha⟩

theorem prove_confined {goal : Term} (hg : G goal) (depth : Nat) :
    Confined (I depth) A fun state => prove kb settings goal state depth :=
  proveWithin_confined hc hi (by omega) hg

end

/-- No condition is put on the state that the search starts from. -/
theorem Closed.of_mem_answers {settings : Settings} {G : Term → Prop} {A : Substitution → Prop}
    (hc : Closed kb settings.matching G A) {goal : Term} (hg : G goal) {state : State} {depth : Nat}
    {answer : Substitution} (h : answer ∈ (prove kb settings goal state depth).answers) :
    A answer := by
  have hi : Invariant settings.depthBound G fun _ _ => True :=
    ⟨fun _ _ _ => trivial, fun _ => trivial, fun _ _ _ => trivial⟩
  obtain ⟨-, hanswers⟩ := prove_confined hc hi hg depth state trivial
  exact hanswers answer h

-- ---------------------------------------------------------------------------
-- What lies below a query
-- ---------------------------------------------------------------------------

def AllBelow (query : Term) (G : Term → Prop) (s : State) : Prop :=
  ∃ below, s.entered = query :: below ∧ ∀ goal ∈ below ++ s.cutoffs.map Cutoff.goal, G goal

theorem allBelow_enter (query : Term) (G : Term → Prop) :
    AllBelow query G (State.empty.enter query) :=
  ⟨[], rfl, fun _ hm => nomatch hm⟩

theorem allBelow_invariant (query : Term) (G : Term → Prop) (bound : Nat) :
    Invariant bound G fun _ => AllBelow query G where
  enter {goal _ s} hg _ h := by
    obtain ⟨below, hs, hbelow⟩ := h
    refine ⟨below ++ [goal], by simp [State.enter, hs], ?_⟩
    simp only [List.forall_mem_append, List.forall_mem_singleton] at hbelow ⊢
    exact ⟨⟨hbelow.1, hg⟩, hbelow.2⟩
  leave := id
  cutOff {goal depth s} hg _ h := by
    obtain ⟨below, hs, hbelow⟩ := h
    refine ⟨below, hs, ?_⟩
    simp only [State.cutOff, List.map_append, List.forall_mem_append, List.map_cons, List.map_nil,
      List.forall_mem_singleton] at hbelow ⊢
    exact ⟨hbelow.1, hbelow.2, hg⟩

theorem prove_allBelow {settings : Settings} {query : Term} {G : Term → Prop}
    {A B : Substitution → Prop} (hc : Closed kb settings.matching G A)
    (ho : Opens kb settings.matching query G A B) :
    AllBelow query G (prove kb settings query .empty 0).state ∧
      ∀ answer ∈ (prove kb settings query .empty 0).answers, B answer := by
  have hsub : ∀ goal, G goal →
      Confined (AllBelow query G) A fun state => prove kb settings goal state 1 :=
    fun goal hg => prove_confined hc (allBelow_invariant query G _) hg 1
  have hnew : query ∉ State.empty.entered := List.not_mem_nil
  rw [prove_of_le_bound (Nat.zero_le _), if_neg hnew]
  exact tryAll_confined ho hsub _ (allBelow_enter query G)

end Backchain.Search
