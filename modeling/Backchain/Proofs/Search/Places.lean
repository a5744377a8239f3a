import Backchain.Proofs.Search.Bound

/-!
# Places in a search

A search comes from its query to a sub-goal step by step. A step is told by the rule, by the goal of
its body that is up and by the bindings that are applied to that goal, and the steps together are a
place. Searches with different bounds or clauses come to the same sub-goal at a place, but in
different states, so they can be compared place by place.

Every answer has a derivation that the search enters at all its places. Conversely, a search that
may go as deep as a derivation and has its clauses finds its answer, unless it turns away some goal
of the derivation at its place. So where a higher bound or a new clause loses an answer, the guard
against entering a goal twice has lost it: somewhere a goal is entered, which it was not before,
that is then turned away where it is needed.
-/

namespace Backchain.Search

variable {α : Type}

-- ---------------------------------------------------------------------------
-- The first turn for an item
-- ---------------------------------------------------------------------------

section
variable [DecidableEq α] {search : α → State → Outcome} {items : List α} {item : α} {state : State}
  {answer : Substitution}

/-- The state in which a loop comes to the item for the first time. -/
def turnState (search : α → State → Outcome) (items : List α) (item : α) (state : State) : State :=
  (forEach search (items.takeWhile (· ≠ item)) state).state

theorem turnState_cons_self : turnState search (item :: items) item state = state := by
  simp [turnState, forEach]

theorem turnState_cons_of_ne {other : α} (h : other ≠ item) :
    turnState search (other :: items) item state =
      turnState search items item (search other state).state := by
  simp [turnState, h, forEach]

theorem mem_answers_of_turn (hm : item ∈ items)
    (ha : answer ∈ (search item (turnState search items item state)).answers) :
    answer ∈ (forEach search items state).answers := by
  induction items generalizing state with
  | nil => cases hm
  | cons other items ih =>
    by_cases heq : other = item
    · subst heq
      rw [turnState_cons_self] at ha
      exact List.mem_append_left _ ha
    · rw [turnState_cons_of_ne heq] at ha
      have hm : item ∈ items := (List.mem_cons.mp hm).resolve_left (Ne.symm heq)
      exact List.mem_append_right _ (ih hm ha)

/-- If later turns for an item have no new answers, its first turn has them all. -/
theorem exists_first_turn_of_mem_answers
    (hgrow : ∀ item s, State.Extends s (search item s).state)
    (hagain : ∀ item s t, (search item s).state.Extends t →
      (search item t).answers ⊆ (search item s).answers)
    (ha : answer ∈ (forEach search items state).answers) :
    ∃ item ∈ items, answer ∈ (search item (turnState search items item state)).answers := by
  induction items generalizing state with
  | nil => cases ha
  | cons other items ih =>
    rcases List.mem_append.mp ha with ha | ha
    · exact ⟨other, List.mem_cons_self, by rwa [turnState_cons_self]⟩
    · obtain ⟨item, hm, ha⟩ := ih ha
      by_cases heq : other = item
      · subst heq
        have hlater := forEach_keeps .refl .trans hgrow (items.takeWhile (· ≠ other))
          (search other state).state
        refine ⟨other, List.mem_cons_self, ?_⟩
        rw [turnState_cons_self]
        exact hagain other state _ hlater ha
      · exact ⟨item, List.mem_cons_of_mem _ hm, by rwa [turnState_cons_of_ne heq]⟩

end

-- ---------------------------------------------------------------------------
-- Calls and places
-- ---------------------------------------------------------------------------

structure Call where
  goal : Term
  state : State
  depth : Nat

/-- The goal at the position in the body of the rule, with the bindings applied to it. -/
structure Step where
  rule : Rule
  position : Nat
  bindings : Substitution

abbrev Place := List Step

namespace Call

variable (kb : KnowledgeBase) (settings : Settings) (call : Call)

def run : Outcome := prove kb settings call.goal call.state call.depth

structure Enters : Prop where
  within : call.depth ≤ settings.depthBound
  new : call.goal ∉ call.state.entered

structure TurnsAway : Prop where
  within : call.depth ≤ settings.depthBound
  known : call.goal ∈ call.state.entered

def sub : Strategy := fun goal state => prove kb settings goal state (call.depth + 1)

def proveFirst (rule : Rule) (seed : Substitution) (goals : List Term) : Outcome :=
  proveBody (call.sub kb settings) goals [seed]
    (turnState (tryRule (call.sub kb settings) settings.matching call.goal) kb.rules rule
      (call.state.enter call.goal))

/-- The search for the goal of a body, when one answer to the goals before it has its turn. -/
def next (first : Outcome) (goal : Term) (bindings : Substitution) : Call where
  goal := bindings.apply goal
  state := turnState (extend (call.sub kb settings) goal) first.answers bindings first.state
  depth := call.depth + 1

end Call

inductive TakesStep (kb : KnowledgeBase) (settings : Settings) (call : Call) : Step → Call → Prop
  | intro {rule : Rule} {position : Nat} {bindings seed : Substitution} {goal : Term}
      {first : Outcome} :
      rule ∈ kb.rules → unify? settings.matching call.goal rule.head = some seed →
      rule.body[position]? = some goal →
      call.proveFirst kb settings rule seed (rule.body.take position) = first →
      bindings ∈ first.answers →
      TakesStep kb settings call ⟨rule, position, bindings⟩
        (call.next kb settings first goal bindings)

/-- The search that the first call starts makes the second at the place. -/
inductive ComesTo (kb : KnowledgeBase) (settings : Settings) : Call → Place → Call → Prop
  | here {call : Call} : ComesTo kb settings call [] call
  | step {call next last : Call} {step : Step} {place : Place} :
      call.Enters settings → TakesStep kb settings call step next →
      ComesTo kb settings next place last → ComesTo kb settings call (step :: place) last

def EntersAt (kb : KnowledgeBase) (settings : Settings) (call : Call) (place : Place)
    (goal : Term) : Prop :=
  ∃ last, ComesTo kb settings call place last ∧ last.goal = goal ∧ last.Enters settings

def TurnsAwayAt (kb : KnowledgeBase) (settings : Settings) (call : Call) (place : Place)
    (goal : Term) : Prop :=
  ∃ last, ComesTo kb settings call place last ∧ last.goal = goal ∧ last.TurnsAway settings

variable {kb : KnowledgeBase} {settings : Settings} {call : Call}

theorem ComesTo.depth_eq {place : Place} {last : Call} (h : ComesTo kb settings call place last) :
    last.depth = call.depth + place.length := by
  induction h with
  | here => rfl
  | step _ hstep _ ih =>
    cases hstep
    simp only [ih, Call.next, List.length_cons]
    omega

-- ---------------------------------------------------------------------------
-- Where the answers of a call come from
-- ---------------------------------------------------------------------------

theorem mem_entered_prove {depth : Nat} (hd : depth ≤ settings.depthBound) (goal : Term)
    (s : State) : goal ∈ (prove kb settings goal s depth).state.entered := by
  rw [prove_of_le_bound hd]
  split
  · assumption
  · have hin : goal ∈ (s.enter goal).entered := List.mem_append_right _ List.mem_cons_self
    have hgrow := tryAll_keeps .refl .trans (prove_justifies kb settings (depth + 1)).grows
      settings.matching kb goal (s.enter goal)
    exact hgrow.mem hin

theorem answers_prove_again {goal : Term} {depth : Nat} {s t : State}
    (h : (prove kb settings goal s depth).state.Extends t) :
    (prove kb settings goal t depth).answers = [] := by
  rcases Nat.lt_or_ge settings.depthBound depth with hd | hd
  · rw [prove_of_bound_lt hd]
  · rw [prove_of_le_bound hd, if_pos (h.mem (mem_entered_prove hd goal s))]

namespace Call

variable {answer : Substitution}

theorem sub_extends (goal : Term) (s : State) :
    State.Extends s (call.sub kb settings goal s).state :=
  (prove_justifies kb settings (call.depth + 1)).grows goal s

theorem answers_extend_again {goal : Term} {bindings : Substitution} {s t : State}
    (h : (extend (call.sub kb settings) goal bindings s).state.Extends t) :
    (extend (call.sub kb settings) goal bindings t).answers ⊆
      (extend (call.sub kb settings) goal bindings s).answers := by
  have hnil : (call.sub kb settings (bindings.apply goal) t).answers = [] := answers_prove_again h
  simp [extend, hnil]

theorem answers_tryRule_again (rule : Rule) {s t : State} :
    let search := tryRule (call.sub kb settings) settings.matching call.goal rule
    (search s).state.Extends t → (search t).answers ⊆ (search s).answers := by
  intro search h
  simp only [search, tryRule] at h ⊢
  cases hu : unify settings.matching call.goal rule.head with
  | error mismatch => exact List.Subset.refl _
  | ok seed =>
    simp only [hu] at h ⊢
    cases hbody : rule.body with
    | nil => exact List.Subset.refl _
    | cons goal goals =>
      rw [hbody] at h
      -- The first turn has asked for the first goal of the body, so to ask again finds nothing.
      have hfirst : (call.sub kb settings (seed.apply goal) s).state.Extends t :=
        (proveBody_keeps .refl .trans sub_extends goals _ _).trans h
      have hnil : (call.sub kb settings (seed.apply goal) t).answers = [] :=
        answers_prove_again hfirst
      simp [proveBody, forEach, extend, hnil, answers_proveBody_nil]

theorem enters_of_mem_answers (ha : answer ∈ (call.run kb settings).answers) :
    call.Enters settings := by
  rcases Nat.lt_or_ge settings.depthBound call.depth with hd | hd
  · rw [run, prove_of_bound_lt hd] at ha
    cases ha
  · rw [run, prove_of_le_bound hd] at ha
    split at ha
    · cases ha
    · exact ⟨hd, ‹_›⟩

theorem run_of_enters (kb : KnowledgeBase) (h : call.Enters settings) :
    let rules := forEach (tryRule (call.sub kb settings) settings.matching call.goal) kb.rules
      (call.state.enter call.goal)
    (call.run kb settings).answers =
        kb.facts.filterMap (unify? settings.matching call.goal) ++ rules.answers ∧
      (call.run kb settings).state = rules.state := by
  rw [run, prove_of_le_bound h.within, if_neg h.new]
  simp only [tryAll, answers_tryFacts, state_tryFacts]
  exact ⟨rfl, rfl⟩

theorem mem_answers_run (h : call.Enters settings) :
    answer ∈ (call.run kb settings).answers ↔
      (∃ fact ∈ kb.facts, unify? settings.matching call.goal fact = some answer) ∨
      ∃ rule ∈ kb.rules, ∃ seed, unify? settings.matching call.goal rule.head = some seed ∧
        answer ∈ (call.proveFirst kb settings rule seed rule.body).answers := by
  rw [(run_of_enters kb h).1, List.mem_append, List.mem_filterMap]
  refine or_congr_right ⟨?_, ?_⟩
  · intro ha
    obtain ⟨rule, hr, ha⟩ := exists_first_turn_of_mem_answers
      (tryRule_keeps .refl .trans sub_extends settings.matching call.goal)
      (fun rule _ _ => answers_tryRule_again rule) ha
    exact ⟨rule, hr, mem_answers_tryRule.mp ha⟩
  · rintro ⟨rule, hr, ha⟩
    exact mem_answers_of_turn hr (mem_answers_tryRule.mpr ha)

theorem proveFirst_concat (rule : Rule) (seed : Substitution) (done : List Term) (goal : Term) :
    let first := call.proveFirst kb settings rule seed done
    let last := forEach (extend (call.sub kb settings) goal) first.answers first.state
    (call.proveFirst kb settings rule seed (done ++ [goal])).answers = last.answers ∧
      (call.proveFirst kb settings rule seed (done ++ [goal])).state = last.state := by
  simp only [proveFirst, proveBody_append, proveBody, and_self]

theorem mem_answers_proveFirst_concat {rule : Rule} {seed : Substitution} {done : List Term}
    {goal : Term} :
    let first := call.proveFirst kb settings rule seed done
    answer ∈ (call.proveFirst kb settings rule seed (done ++ [goal])).answers ↔
      ∃ bindings ∈ first.answers,
        ∃ found ∈ ((call.next kb settings first goal bindings).run kb settings).answers,
          bindings.update found = answer := by
  intro first
  rw [(proveFirst_concat rule seed done goal).1]
  constructor
  · intro ha
    have hgrow : ∀ (bindings : Substitution) s,
        State.Extends s (extend (call.sub kb settings) goal bindings s).state :=
      fun bindings s => sub_extends (bindings.apply goal) s
    obtain ⟨bindings, hb, ha⟩ :=
      exists_first_turn_of_mem_answers hgrow (fun _ _ _ => answers_extend_again) ha
    obtain ⟨found, hfound, heq⟩ := List.mem_map.mp ha
    exact ⟨bindings, hb, found, hfound, heq⟩
  · rintro ⟨bindings, hb, found, hfound, heq⟩
    exact mem_answers_of_turn hb (List.mem_map.mpr ⟨found, hfound, heq⟩)

end Call

-- ---------------------------------------------------------------------------
-- Derivations, place by place
-- ---------------------------------------------------------------------------

mutual
def Derivation.places {matching : Matching} {goal : Term} {answer : Substitution} :
    Derivation kb matching goal answer → List (Place × Term)
  | .fact .. => [([], goal)]
  | .rule rule _ _ _ body => ([], goal) :: body.places rule 0
def BodyDerivation.places {matching : Matching} {goals : List Term}
    {sofar answer : Substitution} (rule : Rule) :
    BodyDerivation kb matching goals sofar answer → Nat → List (Place × Term)
  | .nil, _ => []
  | .cons _ child rest, position =>
    child.places.map (fun node => (⟨rule, position, sofar⟩ :: node.1, node.2)) ++
      rest.places rule (position + 1)
end

theorem takesStep_next {rule : Rule} {seed bindings : Substitution} {done goals : List Term}
    {goal : Term} (hr : rule ∈ kb.rules)
    (hu : unify? settings.matching call.goal rule.head = some seed)
    (hbody : rule.body = done ++ goal :: goals)
    (hb : bindings ∈ (call.proveFirst kb settings rule seed done).answers) :
    TakesStep kb settings call ⟨rule, done.length, bindings⟩
      (call.next kb settings (call.proveFirst kb settings rule seed done) goal bindings) :=
  .intro hr hu (by simp [hbody]) (by simp [hbody]) hb

/-- For each answer of the call, it enters the goals of some derivation at their places. -/
def Traces (kb : KnowledgeBase) (settings : Settings) (call : Call) : Prop :=
  ∀ answer ∈ (call.run kb settings).answers,
    ∃ tree : Derivation kb settings.matching call.goal answer,
      ∀ node ∈ tree.places, EntersAt kb settings call node.1 node.2

theorem exists_body_entersAt (hcall : call.Enters settings)
    (hnext : ∀ next : Call, next.depth = call.depth + 1 → Traces kb settings next) {rule : Rule}
    (hr : rule ∈ kb.rules) {seed : Substitution}
    (hu : unify? settings.matching call.goal rule.head = some seed) {done goals : List Term}
    (hbody : rule.body = done ++ goals) {answer : Substitution}
    (ha : answer ∈ (call.proveFirst kb settings rule seed (done ++ goals)).answers) :
    ∃ start ∈ (call.proveFirst kb settings rule seed done).answers,
      ∃ body : BodyDerivation kb settings.matching goals start answer,
        ∀ node ∈ body.places rule done.length, EntersAt kb settings call node.1 node.2 := by
  induction goals generalizing done with
  | nil =>
    rw [List.append_nil] at ha
    exact ⟨answer, ha, .nil, nofun⟩
  | cons goal goals ih =>
    rw [List.append_cons] at ha
    obtain ⟨mid, hmid, body, hrest⟩ := ih (by rw [hbody, List.append_cons]) ha
    obtain ⟨bindings, hb, found, hfound, rfl⟩ := Call.mem_answers_proveFirst_concat.mp hmid
    have hstep := takesStep_next hr hu hbody hb
    obtain ⟨child, hchild⟩ := hnext _ rfl found hfound
    refine ⟨bindings, hb, .cons found child body, ?_⟩
    intro node hn
    rcases List.mem_append.mp hn with hn | hn
    · obtain ⟨below, hbelow, rfl⟩ := List.mem_map.mp hn
      obtain ⟨last, hlast, hgoal, henters⟩ := hchild below hbelow
      exact ⟨last, .step hcall hstep hlast, hgoal, henters⟩
    · rw [List.length_append] at hrest
      exact hrest node hn

theorem traces (kb : KnowledgeBase) (settings : Settings) (call : Call) :
    Traces kb settings call := by
  -- On the levels that are left below the bound.
  induction h : settings.depthBound + 1 - call.depth generalizing call with
  | zero =>
    intro answer ha
    have hdepth := (Call.enters_of_mem_answers ha).within
    omega
  | succ levels ih =>
    intro answer ha
    have hcall := Call.enters_of_mem_answers ha
    have hnext : ∀ next : Call, next.depth = call.depth + 1 → Traces kb settings next :=
      fun next hdepth => ih next (by omega)
    rcases (Call.mem_answers_run hcall).mp ha with ⟨fact, hf, hu⟩ | ⟨rule, hr, seed, hu, ha⟩
    · refine ⟨.fact fact hf hu, ?_⟩
      rintro node (_ | ⟨_, ⟨⟩⟩)
      exact ⟨call, .here, rfl, hcall⟩
    · obtain ⟨start, hstart, body, hplaces⟩ :=
        exists_body_entersAt hcall hnext hr hu (List.nil_append _).symm ha
      obtain rfl := List.mem_singleton.mp hstart
      refine ⟨.rule rule start hr hu body, ?_⟩
      rintro node (_ | ⟨_, hn⟩)
      · exact ⟨call, .here, rfl, hcall⟩
      · exact hplaces node hn

theorem Derivation.root_mem_places {matching : Matching} {goal : Term} {answer : Substitution}
    (tree : Derivation kb matching goal answer) : ([], goal) ∈ tree.places := by
  cases tree <;> exact List.mem_cons_self

mutual
/-- The answer of a derivation is found if the search may go as deep as the derivation goes and
turns away none of its goals at their places. -/
theorem Derivation.mem_answers {matching : Matching} (hm : settings.matching = matching)
    {goal : Term} {answer : Substitution} (tree : Derivation kb matching goal answer)
    {state : State} {depth : Nat}
    (hdeep : ∀ node ∈ tree.places, depth + node.1.length ≤ settings.depthBound)
    (h : ∀ node ∈ tree.places, ¬ TurnsAwayAt kb settings ⟨goal, state, depth⟩ node.1 node.2) :
    answer ∈ (Call.run kb settings ⟨goal, state, depth⟩).answers := by
  have hroot := tree.root_mem_places
  have hwithin : depth ≤ settings.depthBound := hdeep _ hroot
  have hcall : Call.Enters settings ⟨goal, state, depth⟩ :=
    ⟨hwithin, fun hknown => h _ hroot ⟨_, .here, rfl, hwithin, hknown⟩⟩
  refine (Call.mem_answers_run hcall).mpr ?_
  match tree with
  | .fact fact hf hu => exact .inl ⟨fact, hf, hm ▸ hu⟩
  | .rule rule seed hr hu body =>
    rw [← hm] at hu
    refine .inr ⟨rule, hr, seed, hu, ?_⟩
    exact body.mem_answers hm hcall hr hu (List.nil_append _).symm List.mem_cons_self
      (fun node hn => hdeep node (List.mem_cons_of_mem _ hn))
      (fun node hn => h node (List.mem_cons_of_mem _ hn))
theorem BodyDerivation.mem_answers {matching : Matching} (hm : settings.matching = matching)
    {goals : List Term} {sofar answer : Substitution}
    (body : BodyDerivation kb matching goals sofar answer) {call : Call}
    (hcall : call.Enters settings) {rule : Rule} (hr : rule ∈ kb.rules) {seed : Substitution}
    (hu : unify? settings.matching call.goal rule.head = some seed) {done : List Term}
    (hbody : rule.body = done ++ goals)
    (hs : sofar ∈ (call.proveFirst kb settings rule seed done).answers)
    (hdeep : ∀ node ∈ body.places rule done.length,
      call.depth + node.1.length ≤ settings.depthBound)
    (h : ∀ node ∈ body.places rule done.length, ¬ TurnsAwayAt kb settings call node.1 node.2) :
    answer ∈ (call.proveFirst kb settings rule seed (done ++ goals)).answers := by
  match goals, body with
  | [], .nil => rwa [List.append_nil]
  | goal :: goals, .cons found child rest =>
    have hstep := takesStep_next hr hu hbody hs
    let first := call.proveFirst kb settings rule seed done
    have hfound : found ∈ (Call.run kb settings
        (call.next kb settings first goal sofar)).answers := by
      refine child.mem_answers hm (fun node hn => ?_) (fun node hn => ?_)
      · have hplace := hdeep (_ :: node.1, node.2)
          (List.mem_append_left _ (List.mem_map.mpr ⟨node, hn, rfl⟩))
        simp only [List.length_cons] at hplace
        omega
      · rintro ⟨last, hlast, hgoal, hturns⟩
        exact h _ (List.mem_append_left _ (List.mem_map.mpr ⟨node, hn, rfl⟩))
          ⟨last, .step hcall hstep hlast, hgoal, hturns⟩
    have hmid := Call.mem_answers_proveFirst_concat.mpr ⟨sofar, hs, found, hfound, rfl⟩
    have hlength : (done ++ [goal]).length = done.length + 1 := by simp
    rw [List.append_cons]
    refine rest.mem_answers hm hcall hr hu (by rw [hbody, List.append_cons]) hmid ?_ ?_
    · rw [hlength]
      exact fun node hn => hdeep node (List.mem_append_right _ hn)
    · rw [hlength]
      exact fun node hn => h node (List.mem_append_right _ hn)
end

section
variable {kb' : KnowledgeBase} (hf : kb.facts ⊆ kb'.facts) (hr : kb.rules ⊆ kb'.rules)

mutual
def Derivation.widen {matching : Matching} {goal : Term} {answer : Substitution} :
    Derivation kb matching goal answer → Derivation kb' matching goal answer
  | .fact fact hm hu => .fact fact (hf hm) hu
  | .rule rule seed hm hu body => .rule rule seed (hr hm) hu body.widen
def BodyDerivation.widen {matching : Matching} {goals : List Term}
    {sofar answer : Substitution} :
    BodyDerivation kb matching goals sofar answer → BodyDerivation kb' matching goals sofar answer
  | .nil => .nil
  | .cons found child rest => .cons found child.widen rest.widen
end

mutual
theorem Derivation.places_widen {matching : Matching} {goal : Term} {answer : Substitution}
    (tree : Derivation kb matching goal answer) : (tree.widen hf hr).places = tree.places := by
  match tree with
  | .fact .. => rfl
  | .rule rule seed hm hu body =>
    simp only [Derivation.widen, Derivation.places, body.places_widen rule 0]
theorem BodyDerivation.places_widen {matching : Matching} {goals : List Term}
    {sofar answer : Substitution} (rule : Rule)
    (body : BodyDerivation kb matching goals sofar answer) (position : Nat) :
    (body.widen hf hr).places rule position = body.places rule position := by
  match goals, body with
  | [], .nil => rfl
  | goal :: goals, .cons found child rest =>
    simp only [BodyDerivation.widen, BodyDerivation.places, child.places_widen,
      rest.places_widen rule]
end

include hf hr

/-- With a bound that is no lower and no clause less there is the same answer, unless some
derivation that the first search enters at all places has a goal that the other search turns away at
its place. -/
theorem mem_answers_or_turnsAwayAt {shallow deep : Settings} (hm : deep.matching = shallow.matching)
    (hb : shallow.depthBound ≤ deep.depthBound) {call : Call} {answer : Substitution}
    (ha : answer ∈ (call.run kb shallow).answers) :
    answer ∈ (call.run kb' deep).answers ∨
      ∃ tree : Derivation kb shallow.matching call.goal answer,
        (∀ node ∈ tree.places, EntersAt kb shallow call node.1 node.2) ∧
        ∃ node ∈ tree.places, TurnsAwayAt kb' deep call node.1 node.2 := by
  obtain ⟨tree, henters⟩ := traces kb shallow call answer ha
  by_cases hturns : ∃ node ∈ tree.places, TurnsAwayAt kb' deep call node.1 node.2
  · exact .inr ⟨tree, henters, hturns⟩
  · have hdeep : ∀ node ∈ tree.places, call.depth + node.1.length ≤ deep.depthBound := by
      intro node hn
      obtain ⟨last, hlast, -, hwithin⟩ := henters node hn
      have hdepth := hlast.depth_eq
      have hshallow := hwithin.within
      omega
    refine .inl ((tree.widen hf hr).mem_answers hm ?_ ?_)
    · rw [tree.places_widen hf hr]
      exact hdeep
    · rw [tree.places_widen hf hr]
      exact fun node hn h => hturns ⟨node, hn, h⟩

end

/-- A goal that has an answer keeps having one when the bound is raised, unless the lower bound cuts
something off and for each of the answers the guard against entering a goal twice turns away some
goal of the derivation at its place, where the search with the lower bound enters it. -/
theorem answers_ne_nil_or_turnsAwayAt_of_le_bound {shallow deep : Settings}
    (hm : deep.matching = shallow.matching) (hb : shallow.depthBound ≤ deep.depthBound)
    (kb : KnowledgeBase) (query : Term) (hne : (solve kb shallow query).value.answers ≠ []) :
    (solve kb deep query).value.answers ≠ [] ∨
      (solve kb shallow query).value.cutoffs ≠ [] ∧
      ∀ answer ∈ (solve kb shallow query).value.answers,
        ∃ tree : Derivation kb shallow.matching query answer,
          (∀ node ∈ tree.places, EntersAt kb shallow ⟨query, .empty, 0⟩ node.1 node.2) ∧
          ∃ node ∈ tree.places, TurnsAwayAt kb deep ⟨query, .empty, 0⟩ node.1 node.2 := by
  let call : Call := ⟨query, .empty, 0⟩
  by_cases hnil : (solve kb deep query).value.answers = []
  · refine .inr ⟨fun hcut => hne ?_, fun answer ha => ?_⟩
    · have hlevels : shallow.depthBound + 1 - 0 ≤ deep.depthBound + 1 - 0 := by omega
      exact (proveWithin_eq_of_cutoffs_eq hm hlevels hcut).1.symm.trans hnil
    · have hrun : answer ∈ (call.run kb shallow).answers := ha
      rcases mem_answers_or_turnsAwayAt (List.Subset.refl _) (List.Subset.refl _) hm hb hrun
        with hdeep | h
      · have hdeep : answer ∈ (solve kb deep query).value.answers := hdeep
        rw [hnil] at hdeep
        cases hdeep
      · exact h
  · exact .inl hnil

def guestList : KnowledgeBase where
  facts := [⟨"known", [.const "ana"], by decide, by decide⟩]
  rules :=
    [{ head := ⟨"welcome", [.var "Guest"], by decide, by decide⟩
       body := [⟨"vouched", [.var "Guest"], by decide, by decide⟩,
         ⟨"invited", [.var "Guest"], by decide, by decide⟩] },
      { head := ⟨"vouched", [.var "Guest"], by decide, by decide⟩
        body := [⟨"known", [.var "Guest"], by decide, by decide⟩] },
      { head := ⟨"welcome", [.var "Guest"], by decide, by decide⟩
        body := [⟨"known", [.var "Guest"], by decide, by decide⟩] }]

/-- With one level more the search finds that the guest is known in order to vouch for her, in vain
since she is not invited. It does not look that up again where it would be enough. -/
theorem exists_answers_lost_of_le_bound :
    ¬ ∀ (kb : KnowledgeBase) (shallow deep : Settings) (query : Term),
      deep.matching = shallow.matching → shallow.depthBound ≤ deep.depthBound →
      (solve kb shallow query).value.answers ≠ [] → (solve kb deep query).value.answers ≠ [] := by
  intro h
  have hdeep := h guestList { maxDepth := 1 } { maxDepth := 2 }
    ⟨"welcome", [.const "ana"], by decide, by decide⟩ rfl (by decide) (by decide)
  exact hdeep (by decide)

theorem turnsAwayAt_of_welcome :
    let query : Term := ⟨"welcome", [.const "ana"], by decide, by decide⟩
    (solve guestList { maxDepth := 1 } query).value.answers ≠ [] ∧
      (solve guestList { maxDepth := 1 } query).value.cutoffs ≠ [] ∧
      ∀ answer ∈ (solve guestList { maxDepth := 1 } query).value.answers,
        ∃ tree : Derivation guestList .sameSymbol query answer,
          (∀ node ∈ tree.places,
            EntersAt guestList { maxDepth := 1 } ⟨query, .empty, 0⟩ node.1 node.2) ∧
          ∃ node ∈ tree.places,
            TurnsAwayAt guestList { maxDepth := 2 } ⟨query, .empty, 0⟩ node.1 node.2 := by
  intro query
  have hne : (solve guestList { maxDepth := 1 } query).value.answers ≠ [] := by decide
  have hnil : (solve guestList { maxDepth := 2 } query).value.answers = [] := by decide
  have hm : Settings.matching { maxDepth := 2 } = Settings.matching { maxDepth := 1 } := rfl
  have hb : Settings.depthBound { maxDepth := 1 } ≤ Settings.depthBound { maxDepth := 2 } := by
    decide
  have h := answers_ne_nil_or_turnsAwayAt_of_le_bound hm hb guestList query hne
  exact ⟨hne, h.resolve_left fun hdeep => hdeep hnil⟩

end Backchain.Search
