import Backchain.Proofs.Search.Derivation
import Backchain.Proofs.Search.Lockstep

/-!
# Only the levels that are left matter

A search sees its depth and its bound only in what lies between them. When it starts further down,
under a bound that is higher by as much, it makes the same calls: it finds the same answers and
enters the same goals. It also cuts off the same goals, and reports each of them that much deeper
and under the higher bound.
-/

namespace Backchain.Search

def Cutoff.lower (levels : Nat) (cutoff : Cutoff) : Cutoff :=
  { cutoff with depth := levels + cutoff.depth, bound := levels + cutoff.bound }

/-- Since the start both runs have entered the same goals and cut off the same, the first of them
further down. -/
def GainLower (levels : Nat) (start s s' : State) : Prop :=
  ∃ goals cutoffs,
    s = ⟨start.entered ++ goals, start.cutoffs ++ cutoffs.map (Cutoff.lower levels)⟩ ∧
      s' = ⟨start.entered ++ goals, start.cutoffs ++ cutoffs⟩

namespace GainLower

variable {levels : Nat} {start s s' : State}

theorem refl (levels : Nat) (start : State) : GainLower levels start start start :=
  ⟨[], [], by simp, by simp⟩

theorem enter (h : GainLower levels start s s') (goal : Term) :
    GainLower levels start (s.enter goal) (s'.enter goal) := by
  obtain ⟨goals, cutoffs, rfl, rfl⟩ := h
  exact ⟨goals ++ [goal], cutoffs, by simp [State.enter], by simp [State.enter]⟩

theorem cutOff (h : GainLower levels start s s') (cutoff : Cutoff) :
    GainLower levels start (s.cutOff (cutoff.lower levels)) (s'.cutOff cutoff) := by
  obtain ⟨goals, cutoffs, rfl, rfl⟩ := h
  exact ⟨goals, cutoffs ++ [cutoff], by simp [State.cutOff], by simp [State.cutOff]⟩

theorem entered_eq (h : GainLower levels start s s') : s.entered = s'.entered := by
  obtain ⟨goals, cutoffs, rfl, rfl⟩ := h
  rfl

end GainLower

section
variable {settings settings' : Settings} (hm : settings.matching = settings'.matching)
  {offset : Nat} (hb : settings.depthBound = offset + settings'.depthBound)
include hm hb

theorem proveWithin_gainLower (kb : KnowledgeBase) (start : State) (levels depth : Nat)
    (goal : Term) :
    Agree (fun _ => True) (GainLower offset start)
      (proveWithin kb settings levels (offset + depth) goal)
      (proveWithin kb settings' levels depth goal) := by
  -- On the levels that are left, which both runs have in common.
  induction levels generalizing depth goal with
  | zero =>
    rintro s s' hr -
    refine ⟨rfl, ?_⟩
    simp only [proveWithin, hb]
    exact hr.cutOff ⟨goal, depth, settings'.depthBound⟩
  | succ levels ih =>
    rintro s s' hr -
    simp only [proveWithin, hm, hr.entered_eq]
    split
    · exact ⟨rfl, hr⟩
    · exact tryAll_agree (fun _ _ _ _ _ => ih (depth + 1) _) settings'.matching goal _ _
        (hr.enter goal) fun _ _ => trivial

/-- From any state, a search that starts further down under a bound that is higher by as much has
the same answers and enters the same goals in the same order. It cuts off the same goals in the same
order, and their depths and bounds are larger by as much. -/
theorem prove_lower (kb : KnowledgeBase) (goal : Term) (state : State) (depth : Nat) :
    let further := prove kb settings goal state (offset + depth)
    let outcome := prove kb settings' goal state depth
    further.answers = outcome.answers ∧
      ∃ goals cutoffs,
        further.state =
          ⟨state.entered ++ goals, state.cutoffs ++ cutoffs.map (Cutoff.lower offset)⟩ ∧
        outcome.state = ⟨state.entered ++ goals, state.cutoffs ++ cutoffs⟩ := by
  have hlevels : settings.depthBound + 1 - (offset + depth) = settings'.depthBound + 1 - depth := by
    omega
  simp only [prove, hlevels]
  exact proveWithin_gainLower hm hb kb state _ depth goal state state (.refl offset state)
    fun _ _ => trivial

end

theorem prove_lower_of_grandparent :
    let kb : KnowledgeBase :=
      { kinship with facts := grandparent (.const "ivo") (.const "mate") :: kinship.facts }
    let goal := grandparent (.const "ivo") (.var "W")
    let state : State := { entered := [parent (.const "ivo") (.const "luka")] }
    let further := prove kb { maxDepth := 5 } goal state 5
    let outcome := prove kb { maxDepth := 0 } goal state 0
    outcome.answers = [⟨[("W", .const "mate")]⟩] ∧
      outcome.state.cutoffs = [⟨parent (.const "ivo") (.var "Z"), 1, 0⟩] ∧
      further.state.cutoffs = [⟨parent (.const "ivo") (.var "Z"), 6, 5⟩] ∧
      further.answers = outcome.answers ∧
      ∃ goals cutoffs,
        further.state = ⟨state.entered ++ goals, state.cutoffs ++ cutoffs.map (Cutoff.lower 5)⟩ ∧
        outcome.state = ⟨state.entered ++ goals, state.cutoffs ++ cutoffs⟩ := by
  intro kb goal state further outcome
  have hmatching : Settings.matching { maxDepth := 5 } = Settings.matching { maxDepth := 0 } := rfl
  have hbound : Settings.depthBound { maxDepth := 5 } =
      5 + Settings.depthBound { maxDepth := 0 } := by decide
  exact ⟨by decide, by decide, by decide, prove_lower hmatching hbound kb goal state 0⟩

end Backchain.Search
