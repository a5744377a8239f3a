import Mathlib.Data.List.Induction
import Backchain.Proofs.Search.Invariant
import Backchain.Proofs.Search.Places

/-!
# What is cut off, and what is told of it

Where a search cuts a goal off it records that in its state and warns of it in its log, and it
warns of nothing else. So the warnings are the records that are new, one by one.

Depths go up by one from a goal to its sub-goals, and a goal beyond the bound has no sub-goals. So a
search that starts within the bound cuts off goals of bodies only, all of them right below the
bound, and never counts any further.
-/

namespace Backchain

def Search.Cutoff.warning (cutoff : Search.Cutoff) : LogEntry where
  level := .warn
  target := "microprolog::resolver"
  message := "maximum resolution depth " ++ toString cutoff.bound ++ " exceeded for goal " ++
    cutoff.goal.render

namespace Search

variable {kb : KnowledgeBase} {settings : Settings} {matching : Matching}

-- ---------------------------------------------------------------------------
-- Warnings
-- ---------------------------------------------------------------------------

def warnings (log : List Event) : List LogEntry :=
  (log.map Event.entry).filter fun entry => entry.level = .warn

theorem warnings_eq (log : List Event) :
    warnings log = (log.filterMap Event.cutOff?).map fun told =>
      Event.entry (.cutOff told.1 told.2) := by
  induction log with
  | nil => rfl
  | cons event log ih =>
    cases event with
    | cutOff goal bound =>
      exact congrArg (Event.entry (.cutOff goal bound) :: ·) ih
    | _ => exact ih

theorem Tells.warnings_eq {log : List Event} {before after : State} (h : Tells log before after) :
    ∃ new, after.cutoffs = before.cutoffs ++ new ∧ warnings log = new.map Cutoff.warning := by
  obtain ⟨new, hnew, htold⟩ := h
  refine ⟨new, hnew, ?_⟩
  rw [Search.warnings_eq, htold, List.map_map]
  rfl

-- ---------------------------------------------------------------------------
-- Sub-goals
-- ---------------------------------------------------------------------------

/-- A goal of the body of a rule whose head unifies with the goal above, when the goals to its left
have led from the unifier to the bindings that are applied to it. -/
inductive SubGoal (kb : KnowledgeBase) (matching : Matching) (above : Term) : Term → Prop
  | intro {rule : Rule} {seed sofar : Substitution} {done rest : List Term} {pattern : Term} :
      rule ∈ kb.rules → unify? matching above rule.head = some seed →
      rule.body = done ++ pattern :: rest → BodyDerivation kb matching done seed sofar →
      SubGoal kb matching above (sofar.apply pattern)

/-- Beyond the goals that the first state has cut off, the second has cut off sub-goals only, each of
a goal that was entered in between, and all right below the bound. -/
structure CutsBelow (kb : KnowledgeBase) (settings : Settings) (start s : State) : Prop where
  grows : start.Extends s
  below : ∃ new, s.cutoffs = start.cutoffs ++ new ∧ ∀ cutoff ∈ new,
    cutoff.depth = settings.depthBound + 1 ∧ cutoff.bound = settings.depthBound ∧
      ∃ above ∈ s.entered, above ∉ start.entered ∧ SubGoal kb settings.matching above cutoff.goal

namespace CutsBelow

variable {goal : Term} {start s : State}

theorem refl (s : State) : CutsBelow kb settings s s := ⟨.refl s, [], by simp, nofun⟩

theorem enter (h : CutsBelow kb settings start s) (goal : Term) :
    CutsBelow kb settings start (s.enter goal) := by
  obtain ⟨hgrow, new, hnew, hall⟩ := h
  refine ⟨hgrow.trans (.enter s goal), new, hnew, fun cutoff hm => ?_⟩
  obtain ⟨hdepth, hbound, above, hin, habove⟩ := hall cutoff hm
  exact ⟨hdepth, hbound, above, List.mem_append_left _ hin, habove⟩

theorem cutOff (h : CutsBelow kb settings start s) {above : Term} (hin : above ∈ s.entered)
    (hnew : above ∉ start.entered) (hsub : SubGoal kb settings.matching above goal) :
    CutsBelow kb settings start
      (s.cutOff ⟨goal, settings.depthBound + 1, settings.depthBound⟩) := by
  obtain ⟨hgrow, new, heq, hall⟩ := h
  let cutoff : Cutoff := ⟨goal, settings.depthBound + 1, settings.depthBound⟩
  refine ⟨hgrow.trans (.cutOff s cutoff), new ++ [cutoff], by simp [State.cutOff, heq, cutoff], ?_⟩
  exact List.forall_mem_append.mpr
    ⟨hall, List.forall_mem_singleton.mpr ⟨rfl, rfl, above, hin, hnew, hsub⟩⟩

end CutsBelow

-- ---------------------------------------------------------------------------
-- What a search cuts off
-- ---------------------------------------------------------------------------

section
variable {bound depth : Nat} {goal : Term} {sub : Strategy} {I : State → Prop}
  (hs : Justifies kb matching bound depth sub)
  (hsub : ∀ next, SubGoal kb matching goal next → Confined I (fun _ => True) (sub next))
include hs hsub

theorem proveBody_subGoals {rule : Rule} (hr : rule ∈ kb.rules) {seed : Substitution}
    (hu : unify? matching goal rule.head = some seed) {done rest : List Term}
    (hbody : rule.body = done ++ rest) :
    Confined I (fun _ => True) (proveBody sub done [seed]) := by
  intro s hi
  refine ⟨?_, fun _ _ => trivial⟩
  induction done using List.reverseRecOn generalizing rest with
  | nil => exact hi
  | append_singleton done pattern ih =>
    rw [List.append_assoc] at hbody
    -- The goals to the left have been proved when one is up, so its bindings come from a derivation.
    have hturn : ∀ sofar ∈ (proveBody sub done [seed] s).answers,
        Confined I (fun _ => True) (extend sub pattern sofar) := by
      intro sofar hm
      obtain ⟨start, hstart, body, -⟩ := proveBody_derives hs hm
      obtain rfl := List.mem_singleton.mp hstart
      exact extend_confined (fun _ _ => trivial) trivial (hsub _ (.intro hr hu hbody body))
    rw [proveBody_append]
    exact (forEach_confined hturn _ (ih hbody)).1

theorem tryAll_subGoals : Confined I (fun _ => True) (tryAll sub matching kb goal) := by
  have hturn : ∀ rule ∈ kb.rules,
      Confined I (fun _ => True) (tryRule sub matching goal rule) := by
    intro rule hr s hi
    unfold tryRule
    cases hu : unify matching goal rule.head with
    | error mismatch => exact ⟨hi, nofun⟩
    | ok seed =>
      exact proveBody_subGoals hs hsub hr (unify_eq_ok_iff.mp hu) (List.append_nil _).symm s hi
  intro s hi
  simp only [tryAll, state_tryFacts]
  exact ⟨(forEach_confined hturn s hi).1, fun _ _ => trivial⟩

end

theorem proveWithin_cutsBelow {levels depth : Nat} (hl : depth + levels = settings.depthBound + 1)
    {goal : Term} {start s : State} (h : CutsBelow kb settings start s)
    (hgoal : levels = 0 → ∃ above ∈ s.entered, above ∉ start.entered ∧
      SubGoal kb settings.matching above goal) :
    CutsBelow kb settings start (proveWithin kb settings levels depth goal s).state := by
  -- On the levels that are left. Where there are none the goal is cut off: it is a sub-goal.
  induction levels generalizing depth goal s with
  | zero =>
    obtain ⟨above, hin, hnew, hsub⟩ := hgoal rfl
    obtain rfl : depth = settings.depthBound + 1 := hl
    exact h.cutOff hin hnew hsub
  | succ levels ih =>
    simp only [proveWithin]
    split
    · exact h
    · rename_i hnot
      have hs := proveWithin_justifies kb settings levels (depth + 1) (by omega)
      have hnew : goal ∉ start.entered := fun hm => hnot (h.grows.mem hm)
      have hsub : ∀ next, SubGoal kb settings.matching goal next →
          Confined (fun t => goal ∈ t.entered ∧ CutsBelow kb settings start t) (fun _ => True)
            (proveWithin kb settings levels (depth + 1) next) := by
        rintro next hnext t ⟨hin, ht⟩
        refine ⟨⟨(hs.grows next t).mem hin, ?_⟩, fun _ _ => trivial⟩
        exact ih (by omega) ht fun _ => ⟨goal, hin, hnew, hnext⟩
      have hin : goal ∈ (s.enter goal).entered := List.mem_append_right _ List.mem_cons_self
      exact (tryAll_subGoals hs hsub _ ⟨hin, h.enter goal⟩).1.2

theorem ComesTo.depth_le {call last : Call} {place : Place}
    (h : ComesTo kb settings call place last) (hplace : place ≠ []) :
    last.depth ≤ settings.depthBound + 1 := by
  induction h with
  | here => exact absurd rfl hplace
  | @step call next last step place hcall hstep hrest ih =>
    cases place with
    | nil =>
      cases hrest
      cases hstep
      exact Nat.succ_le_succ hcall.within
    | cons step place => exact ih (List.cons_ne_nil _ _)

/-- The new cut-offs of a search are what its log warns of, one by one. Within the bound, each is a
sub-goal of some goal that the search entered, and lies right below the bound. Beyond the bound the
goal itself is the only one. No place of the search is deeper than 1001, whatever the depth of the
goal. -/
theorem prove_warns_of_cutoffs (kb : KnowledgeBase) (settings : Settings) (goal : Term)
    (state : State) (depth : Nat) :
    let outcome := prove kb settings goal state depth
    let bound := settings.depthBound
    (∃ new, outcome.state.cutoffs = state.cutoffs ++ new ∧
      warnings outcome.log = new.map Cutoff.warning ∧
      (depth ≤ bound → ∀ cutoff ∈ new, cutoff.depth = bound + 1 ∧ cutoff.bound = bound ∧
        ∃ above ∈ outcome.state.entered, above ∉ state.entered ∧
          SubGoal kb settings.matching above cutoff.goal) ∧
      (bound < depth → new = [⟨goal, depth, bound⟩])) ∧
    ∀ place last, ComesTo kb settings ⟨goal, state, depth⟩ place last → place ≠ [] →
      last.depth = depth + place.length ∧ last.depth ≤ 1001 := by
  intro outcome bound
  constructor
  · obtain ⟨new, hnew, hwarnings⟩ := (proveWithin_tells kb settings _ depth goal state).warnings_eq
    refine ⟨new, hnew, hwarnings, fun hd => ?_, fun hd => ?_⟩
    · have hbelow : CutsBelow kb settings state outcome.state :=
        proveWithin_cutsBelow (by omega) (.refl state) (by omega)
      obtain ⟨below, hcutoffs, hall⟩ := hbelow.below
      obtain rfl : new = below := List.append_cancel_left (hnew.symm.trans hcutoffs)
      exact hall
    · have hbeyond := congrArg (State.cutoffs ∘ Outcome.state)
        (prove_of_bound_lt hd kb goal state)
      exact List.append_cancel_left (hnew.symm.trans hbeyond)
  · intro place last hlast hplace
    have hle := hlast.depth_le hplace
    have hlimit : bound ≤ 1000 := settings.depthBound_le
    exact ⟨hlast.depth_eq, by omega⟩

theorem prove_warns_of_children_of_ivo :
    let query := grandparent (.const "ivo") (.var "W")
    let children := parent (.const "ivo") (.var "Z")
    let outcome := prove kinship { maxDepth := 0 } query .empty 0
    let deep := prove kinship { maxDepth := 0 } children .empty 3
    (0 ≤ 0 ∧ outcome.state.cutoffs = [⟨children, 1, 0⟩] ∧
      warnings outcome.log = [Cutoff.warning ⟨children, 1, 0⟩] ∧
      ∃ above ∈ outcome.state.entered, SubGoal kinship .sameSymbol above children) ∧
      0 < 3 ∧ deep.state.cutoffs = [⟨children, 3, 0⟩] ∧
      warnings deep.log = [Cutoff.warning ⟨children, 3, 0⟩] := by
  intro query children outcome deep
  have hcut : outcome.state.cutoffs = [⟨children, 1, 0⟩] := by decide
  obtain ⟨⟨new, hnew, hwarn, hwithin, -⟩, -⟩ :=
    prove_warns_of_cutoffs kinship { maxDepth := 0 } query .empty 0
  obtain ⟨⟨new', hnew', hwarn', -, hbeyond⟩, -⟩ :=
    prove_warns_of_cutoffs kinship { maxDepth := 0 } children .empty 3
  obtain rfl : [⟨children, 1, 0⟩] = new := hcut.symm.trans hnew
  obtain rfl := hbeyond (by decide)
  obtain ⟨-, -, above, hin, -, hsub⟩ := hwithin (by decide) _ List.mem_cons_self
  exact ⟨⟨by decide, hcut, hwarn, above, hin, hsub⟩, by decide, hnew', hwarn'⟩

end Search

end Backchain
