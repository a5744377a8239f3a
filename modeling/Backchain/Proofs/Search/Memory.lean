import Backchain.Proofs.Search.Derivation
import Backchain.Proofs.Search.Lockstep

/-!
# What a search remembers

A search asks its state one thing only, whether a goal was entered before. Neither the order in
which goals were entered nor what was cut off makes a difference to it. So from two states that have
entered the same goals it finds the same answers, and it adds the same to both.
-/

namespace Backchain.Search

/-- What the third state has beyond the first, the fourth has beyond the second: the same goals
entered and the same goals cut off, in the same order. -/
def GainAlike (a a' b b' : State) : Prop :=
  ∃ goals cutoffs, b = ⟨a.entered ++ goals, a.cutoffs ++ cutoffs⟩ ∧
    b' = ⟨a'.entered ++ goals, a'.cutoffs ++ cutoffs⟩

namespace GainAlike

variable {a a' b b' : State}

theorem refl (a a' : State) : GainAlike a a' a a' := ⟨[], [], by simp, by simp⟩

theorem enter (h : GainAlike a a' b b') (goal : Term) :
    GainAlike a a' (b.enter goal) (b'.enter goal) := by
  obtain ⟨goals, cutoffs, rfl, rfl⟩ := h
  exact ⟨goals ++ [goal], cutoffs, by simp [State.enter], by simp [State.enter]⟩

theorem cutOff (h : GainAlike a a' b b') (cutoff : Cutoff) :
    GainAlike a a' (b.cutOff cutoff) (b'.cutOff cutoff) := by
  obtain ⟨goals, cutoffs, rfl, rfl⟩ := h
  exact ⟨goals, cutoffs ++ [cutoff], by simp [State.cutOff], by simp [State.cutOff]⟩

theorem mem_iff (h : GainAlike a a' b b') {goal : Term} (hm : goal ∈ a.entered ↔ goal ∈ a'.entered) :
    goal ∈ b.entered ↔ goal ∈ b'.entered := by
  obtain ⟨goals, cutoffs, rfl, rfl⟩ := h
  simp [hm]

end GainAlike

theorem proveWithin_gainAlike {a a' : State} (hm : ∀ goal, goal ∈ a.entered ↔ goal ∈ a'.entered)
    (kb : KnowledgeBase) (settings : Settings) (levels depth : Nat) (goal : Term) :
    Agree (fun _ => True) (GainAlike a a') (proveWithin kb settings levels depth goal)
      (proveWithin kb settings levels depth goal) := by
  -- On the levels that are left. The relation is to the two states at the start of everything.
  induction levels generalizing depth goal with
  | zero => exact fun s s' hr _ => ⟨rfl, hr.cutOff _⟩
  | succ levels ih =>
    rintro s s' hr -
    simp only [proveWithin, hr.mem_iff (hm goal)]
    split
    · exact ⟨rfl, hr⟩
    · exact tryAll_agree (fun _ _ _ _ _ => ih _ _) settings.matching goal _ _ (hr.enter goal)
        fun _ _ => trivial

/-- From states that have entered the same goals, in whatever order, and that have cut off whatever
goals, a search has the same answers, enters the same goals and cuts off the same goals. -/
theorem prove_gains_alike (kb : KnowledgeBase) (settings : Settings) (goal : Term) (depth : Nat)
    {state state' : State} (hm : ∀ goal, goal ∈ state.entered ↔ goal ∈ state'.entered) :
    let outcome := prove kb settings goal state depth
    let outcome' := prove kb settings goal state' depth
    outcome.answers = outcome'.answers ∧
      ∃ goals cutoffs,
        outcome.state = ⟨state.entered ++ goals, state.cutoffs ++ cutoffs⟩ ∧
        outcome'.state = ⟨state'.entered ++ goals, state'.cutoffs ++ cutoffs⟩ :=
  proveWithin_gainAlike hm kb settings _ depth goal state state' (.refl state state')
    fun _ _ => trivial

theorem prove_gains_alike_of_swap :
    let luka := parent (.const "luka") (.var "Y")
    let ana := parent (.const "ana") (.const "ana")
    let query := grandparent (.const "ivo") (.var "W")
    let state : State := { entered := [luka, ana] }
    let state' : State := { entered := [ana, luka, ana], cutoffs := [⟨luka, 11, 10⟩] }
    (∀ goal, goal ∈ state.entered ↔ goal ∈ state'.entered) ∧
      (prove kinship {} query state 0).answers ≠ [] ∧
      (prove kinship {} query state 0).answers = (prove kinship {} query state' 0).answers ∧
      ∃ goals cutoffs,
        (prove kinship {} query state 0).state =
          ⟨state.entered ++ goals, state.cutoffs ++ cutoffs⟩ ∧
        (prove kinship {} query state' 0).state =
          ⟨state'.entered ++ goals, state'.cutoffs ++ cutoffs⟩ := by
  intro luka ana query state state'
  have hm : ∀ goal, goal ∈ state.entered ↔ goal ∈ state'.entered := by
    simp [state, state', or_comm]
  have hne : (prove kinship {} query state 0).answers ≠ [] := by decide
  exact ⟨hm, hne, prove_gains_alike kinship {} query 0 hm⟩

end Backchain.Search
