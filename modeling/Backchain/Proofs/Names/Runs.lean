import Backchain.Proofs.Names.Pairing
import Backchain.Proofs.Search.Repeats

/-!
# Searches that correspond

Two knowledge bases may be the same apart from the names of variables. Some of these names
correspond to each other wherever they occur: they are paired plainly. The others, which are shared
among rules, correspond to each other only within one rule, and from rule to rule to different ones.

Searches of the two take corresponding steps as long as no goal is entered while a shared name is
still a variable in it and no sub-goal binds a shared name anew that is needed further right in
its body. By the first, names that have been handed to another rule are plain. By the second,
what a row has for the shared names of its rule does not depend on what other rules do with them.
-/

namespace Backchain.Search

variable {kb kb' : KnowledgeBase} {settings : Settings}

-- ---------------------------------------------------------------------------
-- Names that are bound anew
-- ---------------------------------------------------------------------------

def Step.rest (step : Step) : List Term := step.rule.body.drop (step.position + 1)

/-- The search that the call starts comes to a sub-goal with an answer that gives one of the names,
occurring in a goal further right in the body, another value than it had. -/
def Rebinds (kb : KnowledgeBase) (settings : Settings) (names : String → Prop) (call : Call) :
    Prop :=
  ∃ place last step next,
    ComesTo kb settings call place last ∧ last.Enters settings ∧
      TakesStep kb settings last step next ∧
    ∃ found ∈ (next.run kb settings).answers, ∃ x ∈ varNamesOf step.rest,
      names x ∧ (step.bindings.update found).get? x ≠ step.bindings.get? x

theorem not_rebinds_of_forall_not {names : String → Prop} (h : ∀ x, ¬ names x) (call : Call) :
    ¬ Rebinds kb settings names call := by
  rintro ⟨_, _, _, _, _, _, _, _, _, x, _, hx, _⟩
  exact h x hx

theorem Rebinds.of_step {names : String → Prop} {call next : Call} {step : Step}
    (hcall : call.Enters settings) (hstep : TakesStep kb settings call step next)
    (h : Rebinds kb settings names next) : Rebinds kb settings names call := by
  obtain ⟨place, last, other, after, hlast, h⟩ := h
  exact ⟨step :: place, last, other, after, .step hcall hstep hlast, h⟩

theorem EntersAt.of_step {call next : Call} {step : Step} {place : Place} {goal : Term}
    (hcall : call.Enters settings) (hstep : TakesStep kb settings call step next)
    (h : EntersAt kb settings next place goal) :
    EntersAt kb settings call (step :: place) goal := by
  obtain ⟨last, hlast, h⟩ := h
  exact ⟨last, .step hcall hstep hlast, h⟩

-- ---------------------------------------------------------------------------
-- Plain and shared names
-- ---------------------------------------------------------------------------

/-- How the names on one side correspond to those on the other wherever they occur, and which names
on each side, none of the former, are shared among rules. -/
structure Alignment where
  plain : Pairing
  shared : String → Prop
  shared' : String → Prop
  faithful : plain.Faithful
  apart : ∀ {x y : String}, plain x y → ¬ shared x
  apart' : ∀ {x y : String}, plain x y → ¬ shared' y

namespace Alignment

variable (A : Alignment)

def flip : Alignment where
  plain := fun y x => A.plain x y
  shared := A.shared'
  shared' := A.shared
  faithful :=
    { unique :=
        ⟨fun _ _ _ h h' => A.faithful.unique.2 h h', fun _ _ _ h h' => A.faithful.unique.1 h h'⟩
      conventional := fun h => (A.faithful.conventional h).symm }
  apart := A.apart'
  apart' := A.apart

def loose : Pairing := fun x y => A.plain x y ∨ A.shared x ∧ A.shared' y

/-- A pairing for the inside of a rule: it says which shared name corresponds to which. -/
structure Local (P : Pairing) : Prop where
  faithful : P.Faithful
  of_plain : ∀ {x y : String}, A.plain x y → P x y
  loose : ∀ {x y : String}, P x y → A.loose x y

def live (P : Pairing) (goals : List Term) : Pairing :=
  fun x y => P x y ∧ (A.plain x y ∨ x ∈ varNamesOf goals)

def States (s s' : State) : Prop := List.Forall₂ (Term.Paired A.plain) s.entered s'.entered

structure Answers (N : Pairing) (s s' : Substitution) : Prop where
  proper : s.Proper
  proper' : s'.Proper
  values : s.Paired N A.loose s'

structure Outcomes (N : Pairing) (o o' : Outcome) : Prop where
  answers : List.Forall₂ (A.Answers N) o.answers o'.answers
  state : A.States o.state o'.state

variable {A}

theorem local_plain : A.Local A.plain where
  faithful := A.faithful
  of_plain := id
  loose := .inl

/-- For the inside of a rule, the pairing may send each shared name to one of its choice. -/
theorem local_of_choice (choice : String → String)
    (hinj : ∀ x, A.shared x → ∀ y, A.shared y → choice x = choice y → x = y)
    (hshared : ∀ x, A.shared x → A.shared' (choice x))
    (hconv : ∀ x, A.shared x →
      (Atom.var x).Conventional ∧ (Atom.var (choice x)).Conventional) :
    A.Local (fun x y => A.plain x y ∨ A.shared x ∧ choice x = y) where
  faithful :=
    { unique := by
        constructor
        · rintro x y z (hx | ⟨hx, rfl⟩) (hy | ⟨hy, hz⟩)
          · exact A.faithful.unique.1 hx hy
          · exact absurd (hz ▸ hshared y hy) (A.apart' hx)
          · exact absurd (hshared x hx) (A.apart' hy)
          · exact hinj x hx y hy hz.symm
        · rintro x y z (hy | ⟨hx, rfl⟩) (hz | ⟨hx', rfl⟩)
          · exact A.faithful.unique.2 hy hz
          · exact absurd hx' (A.apart hy)
          · exact absurd hx (A.apart hz)
          · rfl
      conventional := by
        rintro x y (hxy | ⟨hx, rfl⟩)
        · exact A.faithful.conventional hxy
        · exact hconv x hx }
  of_plain := .inl
  loose := by
    rintro x y (hxy | ⟨hx, rfl⟩)
    · exact .inl hxy
    · exact .inr ⟨hx, hshared x hx⟩

theorem plain_of_loose {t t' : Term} (h : t.Paired A.loose t')
    (hclean : ∀ x ∈ t.varNames, ¬ A.shared x) : t.Paired A.plain t' :=
  h.mono fun x hx _ _ hxy => hxy.resolve_right fun hs => hclean x hx hs.1

-- ---------------------------------------------------------------------------
-- States
-- ---------------------------------------------------------------------------

section
variable {s s' : State} {t t' : Term}

theorem States.flip (h : A.States s s') : A.flip.States s' s :=
  List.Forall₂.flip (h.imp fun _ _ htt => htt.flip)

/-- A goal that was entered has no shared names, so what corresponds to it loosely does so
plainly. -/
theorem States.mem (hs : A.States s s') (h : t.Paired A.loose t') (hm : t ∈ s.entered) :
    t' ∈ s'.entered := by
  obtain ⟨u', hu, htu⟩ := exists_of_mem_of_forall₂ hs hm
  have hclean : ∀ x ∈ t.varNames, ¬ A.shared x := by
    intro x hx
    obtain ⟨y, -, hxy⟩ := htu.exists_name hx
    exact A.apart hxy
  obtain rfl := (Term.paired_biUnique A.faithful.unique).2 (plain_of_loose h hclean) htu
  exact hu

theorem States.mem_iff (hs : A.States s s') (h : t.Paired A.loose t') :
    t ∈ s.entered ↔ t' ∈ s'.entered := by
  have hflip : t'.Paired A.flip.loose t := h.flip.mono fun _ _ _ _ hxy => hxy.imp_right And.symm
  exact ⟨hs.mem h, hs.flip.mem hflip⟩

theorem States.spent_iff (hs : A.States s s') (h : t.Paired A.loose t') (settings : Settings)
    (depth : Nat) : Spent settings depth t s ↔ Spent settings depth t' s' :=
  or_congr_right (hs.mem_iff h)

theorem States.nothing {N : Pairing} {o o' : Outcome} (hs : A.States s s')
    (h : o.answers = [] ∧ o.state.entered = s.entered)
    (h' : o'.answers = [] ∧ o'.state.entered = s'.entered) : A.Outcomes N o o' := by
  refine ⟨?_, ?_⟩
  · rw [h.1, h'.1]
    exact .nil
  · rw [States, h.2, h'.2]
    exact hs

theorem States.enter (hs : A.States s s') (h : t.Paired A.plain t') :
    A.States (s.enter t) (s'.enter t') := List.rel_append hs (.cons h .nil)

end

-- ---------------------------------------------------------------------------
-- Loops
-- ---------------------------------------------------------------------------

theorem Outcomes.forEach {α β : Type} {N : Pairing} {R : α → β → Prop}
    {search : α → State → Outcome} {search' : β → State → Outcome} {items : List α}
    {items' : List β} (h : List.Forall₂ R items items') {s s' : State} (hs : A.States s s')
    (hturn : ∀ earlier item later earlier' item' later', items = earlier ++ item :: later →
      items' = earlier' ++ item' :: later' → R item item' →
      A.States (forEach search earlier s).state (forEach search' earlier' s').state →
      A.Outcomes N (search item (forEach search earlier s).state)
        (search' item' (forEach search' earlier' s').state)) :
    A.Outcomes N (forEach search items s) (forEach search' items' s') := by
  induction h generalizing s s' with
  | nil => exact ⟨.nil, hs⟩
  | @cons item item' items items' hitem _ ih =>
    have hfirst : A.Outcomes N (search item s) (search' item' s') :=
      hturn [] item items [] item' items' rfl rfl hitem hs
    have hrest := ih hfirst.state fun earlier other later earlier' other' later' h h' =>
      hturn (item :: earlier) other later (item' :: earlier') other' later'
        (congrArg (item :: ·) h) (congrArg (item' :: ·) h')
    exact ⟨List.rel_append hfirst.answers hrest.answers, hrest.state⟩

-- ---------------------------------------------------------------------------
-- Rows
-- ---------------------------------------------------------------------------

section
variable {P : Pairing} {goal goal' : Term} {goals goals' : List Term}
  {s s' found found' : Substitution}

theorem unify?_answers (hP : A.Local P) {candidate candidate' : Term} (hg : goal.Paired P goal')
    (hc : candidate.Paired P candidate') (matching : Matching) :
    Option.Rel (A.Answers P) (unify? matching goal candidate)
      (unify? matching goal' candidate') := by
  have hrel := unify?_paired hP.faithful hg hc matching
  generalize hu : unify? matching goal candidate = made,
    hu' : unify? matching goal' candidate' = made' at hrel ⊢
  cases hrel with
  | none => exact .none
  | some h =>
    exact .some ⟨unify?_proper hu, unify?_proper hu',
      h.mono (fun _ _ => id) fun _ _ => hP.loose⟩

theorem Answers.mono {N M : Pairing} (h : A.Answers N s s') (hM : ∀ x y, M x y → N x y) :
    A.Answers M s s' := ⟨h.proper, h.proper', h.values.mono hM fun _ _ => id⟩

theorem Answers.apply (h : A.Answers (A.live P (goal :: goals)) s s') (hP : A.Local P)
    (hg : goal.Paired P goal') : (s.apply goal).Paired A.loose (s'.apply goal') := by
  refine h.values.apply (fun _ _ hxy => hP.loose hxy.1) (hg.mono fun x hx y _ hxy => ?_)
  exact ⟨hxy, .inr (mem_varNamesOf List.mem_cons_self hx)⟩

/-- An answer to a goal says what the plain names are. What the shared names are that are needed
further right stays as it was. -/
theorem Answers.update (h : A.Answers (A.live P (goal :: goals)) s s') (hP : A.Local P)
    (hgoals : List.Forall₂ (Term.Paired P) goals goals') (hfound : A.Answers A.plain found found')
    (hkept : ∀ x ∈ varNamesOf goals, A.shared x → (s.update found).get? x = s.get? x)
    (hkept' : ∀ y ∈ varNamesOf goals', A.shared' y → (s'.update found').get? y = s'.get? y) :
    A.Answers (A.live P goals) (s.update found) (s'.update found') := by
  refine ⟨h.proper.update found, h.proper'.update found', ?_⟩
  rintro x y ⟨hxy, hlive⟩
  have hplain : A.plain x y →
      Option.Rel (Atom.Paired A.loose) ((s.update found).get? x) ((s'.update found').get? y) := by
    have hs : s.Paired A.plain A.loose s' :=
      h.values.mono (fun _ _ hzw => ⟨hP.of_plain hzw, .inl hzw⟩) fun _ _ => id
    exact hs.update hfound.values hfound.proper hfound.proper' x y
  rcases hP.loose hxy with hp | ⟨hx, hy⟩
  · exact hplain hp
  rcases hlive with hp | hlive
  · exact hplain hp
  obtain ⟨next, hnext, hxn⟩ := List.mem_flatMap.mp hlive
  obtain ⟨next', hnext', hpaired⟩ := exists_of_mem_of_forall₂ hgoals hnext
  obtain ⟨z, hz, hxz⟩ := hpaired.exists_name hxn
  obtain rfl : y = z := hP.faithful.unique.2 hxy hxz
  rw [hkept x hlive hx, hkept' y (mem_varNamesOf hnext' hz) hy]
  exact h.values x y ⟨hxy, .inr (mem_varNamesOf (List.mem_cons_of_mem _ hnext) hxn)⟩

end

-- ---------------------------------------------------------------------------
-- Knowledge bases and calls
-- ---------------------------------------------------------------------------

/-- The heads differ in names at most. If a goal that is entered unifies with them, so do the
rules, by a pairing for the inside of a rule. -/
structure Rules (A : Alignment) (matching : Matching) (entered : Term → Prop)
    (rule rule' : Rule) : Prop where
  heads : ∃ Q : Pairing, rule.head.Paired Q rule'.head
  used : ∀ goal, entered goal → (unify? matching goal rule.head).isSome →
    ∃ P, A.Local P ∧ rule.Paired P rule'

structure Aligns (A : Alignment) (kb kb' : KnowledgeBase) (matching : Matching)
    (entered : Term → Prop) : Prop where
  facts : List.Forall₂ (Term.Paired A.plain) kb.facts kb'.facts
  rules : List.Forall₂ (A.Rules matching entered) kb.rules kb'.rules
  clean : ∀ goal, entered goal → ∀ x ∈ goal.varNames, ¬ A.shared x

/-- Two calls that correspond. The goals that the first comes to enter count as entered, and
neither comes to bind a shared name anew. -/
structure Calls (A : Alignment) (kb kb' : KnowledgeBase) (settings : Settings)
    (entered : Term → Prop) (call call' : Call) : Prop where
  goal : call.goal.Paired A.loose call'.goal
  state : A.States call.state call'.state
  depth : call'.depth = call.depth
  entered : ∀ place goal, EntersAt kb settings call place goal → entered goal
  kept : ¬ Rebinds kb settings A.shared call
  kept' : ¬ Rebinds kb' settings A.shared' call'

section
variable {entered : Term → Prop} {call call' : Call}

theorem Calls.enters_iff (h : A.Calls kb kb' settings entered call call') :
    call.Enters settings ↔ call'.Enters settings := by
  rw [Call.enters_iff, Call.enters_iff, h.depth, h.state.spent_iff h.goal settings]

theorem Calls.spent_below (h : A.Calls kb kb' settings entered call call') {s s' : State}
    (hs : A.States s s') {t t' : Term} (ht : t.Paired A.loose t')
    (hspent : Spent settings (call.depth + 1) t s ∨ Spent settings (call'.depth + 1) t' s') :
    Spent settings (call.depth + 1) t s ∧ Spent settings (call'.depth + 1) t' s' := by
  rw [h.depth, hs.spent_iff ht settings, or_self] at hspent
  rw [h.depth, hs.spent_iff ht settings, and_self]
  exact hspent

theorem Calls.goal_plain (h : A.Calls kb kb' settings entered call call')
    (hkb : A.Aligns kb kb' settings.matching entered) (hcall : call.Enters settings) :
    call.goal.Paired A.plain call'.goal :=
  plain_of_loose h.goal (hkb.clean _ (h.entered [] _ ⟨call, .here, rfl, hcall⟩))

theorem Calls.step (h : A.Calls kb kb' settings entered call call') (hcall : call.Enters settings)
    {step step' : Step} {next next' : Call} (hstep : TakesStep kb settings call step next)
    (hstep' : TakesStep kb' settings call' step' next')
    (hgoal : next.goal.Paired A.loose next'.goal) (hstate : A.States next.state next'.state) :
    A.Calls kb kb' settings entered next next' where
  goal := hgoal
  state := hstate
  depth := by
    cases hstep
    cases hstep'
    exact congrArg (· + 1) h.depth
  entered := fun place goal hin => h.entered (_ :: place) goal (hin.of_step hcall hstep)
  kept := fun hnot => h.kept (hnot.of_step hcall hstep)
  kept' := fun hnot => h.kept' (hnot.of_step (h.enters_iff.mp hcall) hstep')

def CallsBelow (A : Alignment) (kb kb' : KnowledgeBase) (settings : Settings)
    (entered : Term → Prop) (call : Call) : Prop :=
  ∀ next next' : Call, next.depth = call.depth + 1 → A.Calls kb kb' settings entered next next' →
    A.Outcomes A.plain (next.run kb settings) (next'.run kb' settings)

end

-- ---------------------------------------------------------------------------
-- Bodies
-- ---------------------------------------------------------------------------

section
variable {entered : Term → Prop} {call call' : Call} {rule rule' : Rule}
  {seed seed' : Substitution} {P : Pairing} {done done' goals goals' : List Term}
  (hcalls : A.Calls kb kb' settings entered call call') (hcall : call.Enters settings)
  (hbelow : A.CallsBelow kb kb' settings entered call) (hP : A.Local P)
  (hr : rule ∈ kb.rules) (hu : unify? settings.matching call.goal rule.head = some seed)
  (hr' : rule' ∈ kb'.rules) (hu' : unify? settings.matching call'.goal rule'.head = some seed')
include hcalls hcall hbelow hP hr hu hr' hu'

theorem Outcomes.proveFirst_concat {goal goal' : Term} (hbody : rule.body = done ++ goal :: goals)
    (hbody' : rule'.body = done' ++ goal' :: goals') (hgoal : goal.Paired P goal')
    (hgoals : List.Forall₂ (Term.Paired P) goals goals')
    (hfirst : A.Outcomes (A.live P (goal :: goals)) (call.proveFirst kb settings rule seed done)
      (call'.proveFirst kb' settings rule' seed' done')) :
    A.Outcomes (A.live P goals) (call.proveFirst kb settings rule seed (done ++ [goal]))
      (call'.proveFirst kb' settings rule' seed' (done' ++ [goal'])) := by
  have hcall' := hcalls.enters_iff.mp hcall
  suffices h : A.Outcomes (A.live P goals) (Search.forEach _ _ _) (Search.forEach _ _ _) by
    obtain ⟨ha, hs⟩ := Call.proveFirst_concat rule seed done goal
    obtain ⟨ha', hs'⟩ := Call.proveFirst_concat rule' seed' done' goal'
    exact ⟨ha ▸ ha' ▸ h.answers, hs ▸ hs' ▸ h.state⟩
  refine Outcomes.forEach (forall₂_with_mem hfirst.answers) hfirst.state ?_
  rintro earlier bindings later earlier' bindings' later' hsplit hsplit' ⟨hb, hb', hrow⟩ hs
  have happly := hrow.apply hP hgoal
  by_cases hearly : bindings ∈ earlier ∨ bindings' ∈ earlier'
  · -- A second turn comes to nothing, and then so does its counterpart, be it a first one.
    obtain ⟨hspent, hspent'⟩ := hcalls.spent_below hs happly
      (hearly.imp Call.spent_of_mem_bindings Call.spent_of_mem_bindings)
    exact hs.nothing (Call.extend_of_spent kb hspent) (Call.extend_of_spent kb' hspent')
  · -- Two first turns are steps to calls that correspond.
    obtain ⟨hnew, hnew'⟩ := not_or.mp hearly
    rw [← turnState_of_not_mem hsplit hnew, ← turnState_of_not_mem hsplit' hnew'] at hs ⊢
    have hstep := takesStep_next hr hu hbody hb
    have hstep' := takesStep_next hr' hu' hbody' hb'
    have hrun := hbelow _ _ rfl (hcalls.step hcall hstep hstep' happly hs)
    refine ⟨?_, hrun.state⟩
    rw [extend, extend, List.forall₂_map_left_iff, List.forall₂_map_right_iff]
    refine (forall₂_with_mem hrun.answers).imp ?_
    rintro found found' ⟨hf, hf', hfound⟩
    refine hrow.update hP hgoals hfound (fun x hx hs => ?_) (fun y hy hs => ?_)
    · by_contra hne
      exact hcalls.kept ⟨[], call, _, _, .here, hcall, hstep, found, hf, x,
        by simpa [Step.rest, hbody] using hx, hs, hne⟩
    · by_contra hne
      exact hcalls.kept' ⟨[], call', _, _, .here, hcall', hstep', found', hf', y,
        by simpa [Step.rest, hbody'] using hy, hs, hne⟩

theorem Outcomes.proveFirst_append (hgoals : List.Forall₂ (Term.Paired P) goals goals')
    (hbody : rule.body = done ++ goals) (hbody' : rule'.body = done' ++ goals')
    (hfirst : A.Outcomes (A.live P goals) (call.proveFirst kb settings rule seed done)
      (call'.proveFirst kb' settings rule' seed' done')) :
    A.Outcomes (A.live P []) (call.proveFirst kb settings rule seed (done ++ goals))
      (call'.proveFirst kb' settings rule' seed' (done' ++ goals')) := by
  induction hgoals generalizing done done' with
  | nil =>
    rw [List.append_nil, List.append_nil]
    exact hfirst
  | @cons goal goal' goals goals' hgoal hgoals ih =>
    have hnext := Outcomes.proveFirst_concat hcalls hcall hbelow hP hr hu hr' hu' hbody hbody'
      hgoal hgoals hfirst
    rw [List.append_cons] at hbody hbody' ⊢
    rw [List.append_cons done']
    exact ih hbody hbody' hnext

theorem Outcomes.proveBody_turn (hbodies : List.Forall₂ (Term.Paired P) rule.body rule'.body)
    (hseeds : A.Answers P seed seed') {earlier later earlier' later' : List Rule}
    (hsplit : kb.rules = earlier ++ rule :: later)
    (hsplit' : kb'.rules = earlier' ++ rule' :: later') :
    let search := Search.tryRule (call.sub kb settings) settings.matching call.goal
    let search' := Search.tryRule (call'.sub kb' settings) settings.matching call'.goal
    let s := (Search.forEach search earlier (call.state.enter call.goal)).state
    let s' := (Search.forEach search' earlier' (call'.state.enter call'.goal)).state
    A.States s s' → A.Outcomes A.plain (proveBody (call.sub kb settings) rule.body [seed] s)
      (proveBody (call'.sub kb' settings) rule'.body [seed'] s') := by
  intro search search' s s' hs
  have hlive : A.Answers (A.live P rule.body) seed seed' := hseeds.mono fun _ _ hxy => hxy.1
  generalize hbody : rule.body = goals, hbody' : rule'.body = goals' at hbodies hlive ⊢
  cases hbodies with
  | nil =>
    refine ⟨.cons (hlive.mono fun x y hxy => ?_) .nil, hs⟩
    exact ⟨hP.of_plain hxy, .inl hxy⟩
  | @cons goal goal' goals goals' hgoal hgoals =>
    by_cases hearly : rule ∈ earlier ∨ rule' ∈ earlier'
    · obtain ⟨hspent, hspent'⟩ := hcalls.spent_below hs (hlive.apply hP hgoal)
        (hearly.imp (fun hm => Call.spent_of_mem_rules hm hu hbody)
          fun hm => Call.spent_of_mem_rules hm hu' hbody')
      exact hs.nothing (Call.proveBody_of_spent kb hspent) (Call.proveBody_of_spent kb' hspent')
    · obtain ⟨hnew, hnew'⟩ := not_or.mp hearly
      have hturn : s = turnState search kb.rules rule _ := (turnState_of_not_mem hsplit hnew _).symm
      have hturn' : s' = turnState search' kb'.rules rule' _ :=
        (turnState_of_not_mem hsplit' hnew' _).symm
      rw [hturn, hturn'] at hs ⊢
      have hstart : A.Outcomes (A.live P (goal :: goals)) (call.proveFirst kb settings rule seed [])
          (call'.proveFirst kb' settings rule' seed' []) := ⟨.cons hlive .nil, hs⟩
      have hall := Outcomes.proveFirst_append hcalls hcall hbelow hP hr hu hr' hu'
        (.cons hgoal hgoals) hbody hbody' hstart
      refine ⟨hall.answers.imp fun _ _ h => h.mono fun x y hxy => ?_, hall.state⟩
      exact ⟨hP.of_plain hxy, .inl hxy⟩

end

-- ---------------------------------------------------------------------------
-- Rules and runs
-- ---------------------------------------------------------------------------

section
variable {entered : Term → Prop} {call call' : Call}

theorem Outcomes.tryRule (hkb : A.Aligns kb kb' settings.matching entered)
    (hcalls : A.Calls kb kb' settings entered call call') (hcall : call.Enters settings)
    (hbelow : A.CallsBelow kb kb' settings entered call) {rule rule' : Rule}
    (hrules : A.Rules settings.matching entered rule rule')
    {earlier later earlier' later' : List Rule} (hsplit : kb.rules = earlier ++ rule :: later)
    (hsplit' : kb'.rules = earlier' ++ rule' :: later') :
    let search := Search.tryRule (call.sub kb settings) settings.matching call.goal
    let search' := Search.tryRule (call'.sub kb' settings) settings.matching call'.goal
    let s := (Search.forEach search earlier (call.state.enter call.goal)).state
    let s' := (Search.forEach search' earlier' (call'.state.enter call'.goal)).state
    A.States s s' → A.Outcomes A.plain (search rule s) (search' rule' s') := by
  intro search search' s s' hs
  have hgoal := hcalls.goal_plain hkb hcall
  obtain ⟨Q, hheads⟩ := hrules.heads
  have hsome := isSome_unify? hgoal hheads settings.matching
  cases hu : unify? settings.matching call.goal rule.head with
  | none =>
    have hu' : unify? settings.matching call'.goal rule'.head = none := by
      simpa [hu] using hsome
    exact hs.nothing ((tryRule_of_unify?_none hu s).imp_right (congrArg State.entered))
      ((tryRule_of_unify?_none hu' s').imp_right (congrArg State.entered))
  | some seed =>
    obtain ⟨seed', hu'⟩ : ∃ seed', unify? settings.matching call'.goal rule'.head = some seed' := by
      rw [← Option.isSome_iff_exists, ← hsome, hu]
      rfl
    have hin : entered call.goal := hcalls.entered [] _ ⟨call, .here, rfl, hcall⟩
    obtain ⟨P, hP, hpaired⟩ := hrules.used call.goal hin (by rw [hu]; rfl)
    have hseeds : A.Answers P seed seed' := by
      have hrel := unify?_answers hP (hgoal.mono fun _ _ _ _ => hP.of_plain) hpaired.head
        settings.matching
      rw [hu, hu'] at hrel
      cases hrel with
      | some h => exact h
    have hbody := Outcomes.proveBody_turn hcalls hcall hbelow hP
      (hsplit ▸ List.mem_append_cons_self) hu (hsplit' ▸ List.mem_append_cons_self) hu'
      hpaired.body hseeds hsplit hsplit' hs
    obtain ⟨ha, ht⟩ := tryRule_of_unify? (call.sub kb settings) hu s
    obtain ⟨ha', ht'⟩ := tryRule_of_unify? (call'.sub kb' settings) hu' s'
    exact ⟨ha ▸ ha' ▸ hbody.answers, ht ▸ ht' ▸ hbody.state⟩

theorem Calls.run (hkb : A.Aligns kb kb' settings.matching entered)
    (h : A.Calls kb kb' settings entered call call') :
    A.Outcomes A.plain (call.run kb settings) (call'.run kb' settings) := by
  -- On the levels that are left below the bound.
  induction hlevels : settings.depthBound + 1 - call.depth using Nat.strong_induction_on
    generalizing call call' with
  | _ levels ih =>
    by_cases hcall : call.Enters settings
    · have hwithin := hcall.within
      have hbelow : A.CallsBelow kb kb' settings entered call :=
        fun next next' hdepth hnext => ih _ (by omega) hnext rfl
      have hgoal := h.goal_plain hkb hcall
      have hfacts : List.Forall₂ (A.Answers A.plain)
          (kb.facts.filterMap (unify? settings.matching call.goal))
          (kb'.facts.filterMap (unify? settings.matching call'.goal)) := by
        refine List.rel_filterMap ?_ hkb.facts
        intro fact fact' hfact
        exact unify?_answers local_plain hgoal hfact settings.matching
      have hrules := Outcomes.forEach hkb.rules (h.state.enter hgoal)
        fun _ _ _ _ _ _ hsplit hsplit' hrule hs =>
          Outcomes.tryRule hkb h hcall hbelow hrule hsplit hsplit' hs
      obtain ⟨ha, hs⟩ := Call.run_of_enters kb hcall
      obtain ⟨ha', hs'⟩ := Call.run_of_enters kb' (h.enters_iff.mp hcall)
      refine ⟨?_, ?_⟩
      · rw [ha, ha']
        exact List.rel_append hfacts hrules.answers
      · rw [hs, hs']
        exact hrules.state
    · have hleft := not_not.mp (Call.enters_iff.not.mp hcall)
      have hright := not_not.mp (Call.enters_iff.not.mp (h.enters_iff.not.mp hcall))
      exact h.state.nothing (prove_of_spent hleft) (prove_of_spent hright)

end

end Alignment

end Backchain.Search
