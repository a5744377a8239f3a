import Backchain.Proofs.Search.Places

/-!
# Requests one after another

A state outlives the search that leaves it, and the next request may start from there. It finds the
goals that were entered for all earlier requests, whatever their depths, and answers none of them
again. A request beyond the bound is recorded as cut off and does nothing else, so it does not use
up its goal.
-/

namespace Backchain.Search

structure Request where
  goal : Term
  depth : Nat
deriving DecidableEq

variable (kb : KnowledgeBase) (settings : Settings)

def serve (request : Request) (state : State) : Outcome :=
  prove kb settings request.goal state request.depth

def serveAll (requests : List Request) (state : State) : State :=
  (forEach (serve kb settings) requests state).state

variable {kb : KnowledgeBase} {settings : Settings} {request : Request} {s : State}

theorem serveAll_append (requests others : List Request) (s : State) :
    serveAll kb settings (requests ++ others) s =
      serveAll kb settings others (serveAll kb settings requests s) := by
  simp only [serveAll, forEach_append]

theorem serveAll_cons (requests : List Request) (s : State) :
    serveAll kb settings (request :: requests) s =
      serveAll kb settings requests (serve kb settings request s).state := rfl

-- ---------------------------------------------------------------------------
-- One request
-- ---------------------------------------------------------------------------

theorem serve_extends (request : Request) (s : State) :
    s.Extends (serve kb settings request s).state :=
  (prove_justifies kb settings request.depth).grows request.goal s

theorem serve_of_entered (hd : request.depth ≤ settings.depthBound)
    (hg : request.goal ∈ s.entered) :
    serve kb settings request s = ⟨[], s, [.reentered request.goal]⟩ := by
  rw [serve, prove_of_le_bound hd, if_pos hg]

-- ---------------------------------------------------------------------------
-- Many requests
-- ---------------------------------------------------------------------------

theorem serveAll_extends (requests : List Request) (s : State) :
    s.Extends (serveAll kb settings requests s) :=
  forEach_keeps .refl .trans serve_extends requests s

theorem mem_entered_serveAll {requests : List Request} (hm : request ∈ requests)
    (hd : request.depth ≤ settings.depthBound) (s : State) :
    request.goal ∈ (serveAll kb settings requests s).entered := by
  obtain ⟨earlier, later, rfl⟩ := List.append_of_mem hm
  rw [serveAll_append, serveAll_cons]
  exact (serveAll_extends later _).mem (mem_entered_prove hd request.goal _)

theorem serveAll_extends_serveAll {earlier requests : List Request} (h : earlier <+: requests)
    (s : State) : (serveAll kb settings earlier s).Extends (serveAll kb settings requests s) := by
  obtain ⟨later, rfl⟩ := h
  rw [serveAll_append]
  exact serveAll_extends later _

/-- A request only adds to what the requests before it left. Within the bound it enters its goal,
and beyond the bound it does no more than to cut that goal off. Where its goal was asked for within
the bound before, or was entered on behalf of any earlier request, it comes to nothing. -/
theorem serve_after_requests (kb : KnowledgeBase) (settings : Settings) (requests : List Request)
    (state : State) (next : Request) :
    let before := serveAll kb settings requests state
    let outcome := serve kb settings next before
    before.Extends outcome.state ∧
      (next.depth ≤ settings.depthBound → next.goal ∈ outcome.state.entered) ∧
      (settings.depthBound < next.depth →
        outcome.answers = [] ∧ outcome.state.entered = before.entered ∧
          outcome.state.cutoffs =
            before.cutoffs ++ [⟨next.goal, next.depth, settings.depthBound⟩]) ∧
      (next.depth ≤ settings.depthBound →
        ((∃ request ∈ requests,
            request.depth ≤ settings.depthBound ∧ request.goal = next.goal) ∨
          ∃ earlier, earlier <+: requests ∧
            next.goal ∈ (serveAll kb settings earlier state).entered) →
        outcome.answers = [] ∧ outcome.state = before) := by
  intro before outcome
  refine ⟨serve_extends next before, fun hd => mem_entered_prove hd next.goal before, ?_, ?_⟩
  · intro hd
    have heq : outcome = _ := prove_of_bound_lt hd kb next.goal before
    rw [heq]
    exact ⟨rfl, rfl, rfl⟩
  · intro hd hbefore
    have hentered : next.goal ∈ before.entered := by
      rcases hbefore with ⟨request, hm, hr, hgoal⟩ | ⟨earlier, hearlier, hgoal⟩
      · exact hgoal ▸ mem_entered_serveAll hm hr state
      · exact (serveAll_extends_serveAll hearlier state).mem hgoal
    simp only [outcome, serve_of_entered hd hentered, and_self]

theorem serve_children_of_ana :
    let children := parent (.const "ana") (.var "Y")
    let first : Request := ⟨grandparent (.const "ivo") (.var "W"), 0⟩
    let deep := serve kinship {} ⟨children, 11⟩ .empty
    let before := serveAll kinship {} [⟨children, 11⟩, first] .empty
    let again := serve kinship {} ⟨children, 3⟩ before
    (10 < 11 ∧ deep.answers = [] ∧ deep.state.cutoffs = [⟨children, 11, 10⟩]) ∧
      3 ≤ 10 ∧ children ∈ before.entered ∧ again.answers = [] ∧ again.state = before := by
  intro children first deep before again
  have hentered : children ∈ before.entered := by decide
  obtain ⟨-, -, hdeep, -⟩ := serve_after_requests kinship {} [] .empty ⟨children, 11⟩
  obtain ⟨-, -, -, hagain⟩ :=
    serve_after_requests kinship {} [⟨children, 11⟩, first] .empty ⟨children, 3⟩
  have hcut := hdeep (by decide)
  have hnone := hagain (by decide) (.inr ⟨_, List.prefix_rfl, hentered⟩)
  exact ⟨⟨by decide, hcut.1, hcut.2.2⟩, by decide, hentered, hnone⟩

end Backchain.Search
