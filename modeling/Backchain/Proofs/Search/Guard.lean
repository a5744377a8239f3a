import Backchain.Proofs.Search.Derivation
import Backchain.Proofs.Search.Lockstep

/-!
# Passing over entered goals only prunes

`explore` is the search that does not mind whether a goal was entered before: within the bound it
tries every goal with all clauses. What `prove` finds and cuts off is found and cut off by
`explore` too, in the same order, with perhaps more in between. Where `prove` passes over no goal
the two come to the same.
-/

namespace Backchain.Search

variable {α : Type}

def exploreWithin (kb : KnowledgeBase) (settings : Settings) : (levels depth : Nat) → Strategy
  | 0, depth, goal, state =>
    let bound := settings.depthBound
    ⟨[], state.cutOff ⟨goal, depth, bound⟩, [.cutOff goal bound]⟩
  | levels + 1, depth, goal, state =>
    let subsearch := exploreWithin kb settings levels (depth + 1)
    tryAll subsearch settings.matching kb goal (state.enter goal)

/-- Searches for a goal as `prove` does, except that a goal is tried however often it comes up. -/
def explore (kb : KnowledgeBase) (settings : Settings) (goal : Term) (state : State)
    (depth : Nat) : Outcome :=
  exploreWithin kb settings (settings.depthBound + 1 - depth) depth goal state

-- ---------------------------------------------------------------------------
-- The pruned run is a part of the full one
-- ---------------------------------------------------------------------------

/-- The answers and the new cut-offs of the first run are, in order, among those of the second. -/
def Prunes (run run' : State → Outcome) : Prop :=
  ∀ s s', (run s).answers.Sublist (run' s').answers ∧
    ∃ new new', (run s).state.cutoffs = s.cutoffs ++ new ∧
      (run' s').state.cutoffs = s'.cutoffs ++ new' ∧ new.Sublist new'

section
variable {sub sub' : Strategy}

theorem forEach_prunes {search search' : α → State → Outcome}
    (h : ∀ item, Prunes (search item) (search' item)) {items items' : List α}
    (hi : items.Sublist items') : Prunes (forEach search items) (forEach search' items') := by
  induction hi with
  | slnil => exact fun s s' => ⟨.slnil, [], [], by simp [forEach]⟩
  | cons item _ ih =>
    intro s s'
    obtain ⟨-, -, more, -, hmore, -⟩ := h item s s'
    obtain ⟨ha, new, new', hn, hn', hsub⟩ := ih s (search' item s').state
    refine ⟨ha.trans (List.sublist_append_right _ _), new, more ++ new', hn, ?_,
      hsub.trans (List.sublist_append_right _ _)⟩
    rw [← List.append_assoc, ← hmore]
    exact hn'
  | cons_cons item _ ih =>
    intro s s'
    obtain ⟨ha, new, new', hn, hn', hsub⟩ := h item s s'
    obtain ⟨hb, more, more', hm, hm', hsub'⟩ := ih (search item s).state (search' item s').state
    refine ⟨ha.append hb, new ++ more, new' ++ more', ?_, ?_, hsub.append hsub'⟩
    · rw [← List.append_assoc, ← hn]
      exact hm
    · rw [← List.append_assoc, ← hn']
      exact hm'

theorem extend_prunes (h : ∀ goal, Prunes (sub goal) (sub' goal)) (goal : Term)
    (sofar : Substitution) : Prunes (extend sub goal sofar) (extend sub' goal sofar) := by
  intro s s'
  obtain ⟨ha, hcut⟩ := h (sofar.apply goal) s s'
  exact ⟨ha.map _, hcut⟩

theorem proveBody_prunes (h : ∀ goal, Prunes (sub goal) (sub' goal)) (goals : List Term)
    {sofar sofar' : List Substitution} (hs : sofar.Sublist sofar') :
    Prunes (proveBody sub goals sofar) (proveBody sub' goals sofar') := by
  induction goals generalizing sofar sofar' with
  | nil => exact fun s s' => ⟨hs, [], [], by simp [proveBody]⟩
  | cons goal goals ih =>
    intro s s'
    obtain ⟨ha, new, new', hn, hn', hsub⟩ := forEach_prunes (extend_prunes h goal) hs s s'
    obtain ⟨hb, more, more', hm, hm', hsub'⟩ := ih ha _ _
    refine ⟨hb, new ++ more, new' ++ more', ?_, ?_, hsub.append hsub'⟩
    · rw [← List.append_assoc, ← hn]
      exact hm
    · rw [← List.append_assoc, ← hn']
      exact hm'

theorem tryRule_prunes (h : ∀ goal, Prunes (sub goal) (sub' goal)) (matching : Matching)
    (goal : Term) (rule : Rule) :
    Prunes (tryRule sub matching goal rule) (tryRule sub' matching goal rule) := by
  intro s s'
  unfold tryRule
  cases unify matching goal rule.head with
  | error mismatch => exact ⟨.slnil, [], [], by simp⟩
  | ok seed => exact proveBody_prunes h rule.body (.refl [seed]) s s'

theorem tryAll_prunes (h : ∀ goal, Prunes (sub goal) (sub' goal)) (matching : Matching)
    (kb : KnowledgeBase) (goal : Term) :
    Prunes (tryAll sub matching kb goal) (tryAll sub' matching kb goal) := by
  intro s s'
  simp only [tryAll, answers_tryFacts, state_tryFacts]
  obtain ⟨ha, hcut⟩ := forEach_prunes (tryRule_prunes h matching goal) (.refl kb.rules) s s'
  exact ⟨(List.Sublist.refl _).append ha, hcut⟩

end

theorem proveWithin_prunes (kb : KnowledgeBase) (settings : Settings) (levels depth : Nat)
    (goal : Term) :
    Prunes (proveWithin kb settings levels depth goal)
      (exploreWithin kb settings levels depth goal) := by
  induction levels generalizing depth goal with
  | zero => exact fun s s' => ⟨.slnil, [_], [_], rfl, rfl, .refl _⟩
  | succ levels ih =>
    intro s s'
    obtain ⟨ha, new, new', hn, hn', hsub⟩ :=
      tryAll_prunes (ih (depth + 1)) settings.matching kb goal (s.enter goal) (s'.enter goal)
    simp only [proveWithin]
    split
    · exact ⟨List.nil_sublist _, [], new', by simp, hn', List.nil_sublist _⟩
    · exact ⟨ha, new, new', hn, hn', hsub⟩

-- ---------------------------------------------------------------------------
-- Without a goal passed over they are the same
-- ---------------------------------------------------------------------------

def SameSince (cutoffs cutoffs' : List Cutoff) (s s' : State) : Prop :=
  ∃ new, s.cutoffs = cutoffs ++ new ∧ s'.cutoffs = cutoffs' ++ new

theorem proveWithin_agree (kb : KnowledgeBase) (settings : Settings) (levels depth : Nat)
    (goal : Term) (cutoffs cutoffs' : List Cutoff) :
    Agree (fun event => ∀ goal, event ≠ .reentered goal) (SameSince cutoffs cutoffs')
      (proveWithin kb settings levels depth goal)
      (exploreWithin kb settings levels depth goal) := by
  induction levels generalizing depth goal with
  | zero =>
    rintro s s' ⟨new, hn, hn'⟩ -
    refine ⟨rfl, new ++ [⟨goal, depth, settings.depthBound⟩], ?_, ?_⟩
    · simp [proveWithin, State.cutOff, hn]
    · simp [exploreWithin, State.cutOff, hn']
  | succ levels ih =>
    intro s s' hr hlog
    simp only [proveWithin] at hlog ⊢
    split at hlog
    · exact absurd rfl (hlog _ List.mem_cons_self goal)
    · rename_i hgoal
      rw [if_neg hgoal]
      exact tryAll_agree (fun _ _ _ _ _ => ih _ _) settings.matching goal (s.enter goal)
        (s'.enter goal) hr hlog

/-- The search prunes `explore`, and equals it if its log tells of no goal passed over. -/
theorem prove_sublist_explore (kb : KnowledgeBase) (settings : Settings) (goal : Term)
    (state : State) (depth : Nat) :
    let pruned := prove kb settings goal state depth
    let full := explore kb settings goal state depth
    pruned.answers.Sublist full.answers ∧
      ∃ new new', pruned.state.cutoffs = state.cutoffs ++ new ∧
        full.state.cutoffs = state.cutoffs ++ new' ∧ new.Sublist new' ∧
        ((∀ goal, Event.reentered goal ∉ pruned.log) →
          pruned.answers = full.answers ∧ new = new') := by
  intro pruned full
  obtain ⟨ha, new, new', hn, hn', hsub⟩ :=
    proveWithin_prunes kb settings (settings.depthBound + 1 - depth) depth goal state state
  refine ⟨ha, new, new', hn, hn', hsub, ?_⟩
  intro hlog
  have hallowed : ∀ event ∈ pruned.log, ∀ goal, event ≠ .reentered goal := by
    rintro event hm goal rfl
    exact hlog goal hm
  obtain ⟨hanswers, same, hs, hs'⟩ :=
    proveWithin_agree kb settings (settings.depthBound + 1 - depth) depth goal state.cutoffs
      state.cutoffs state state ⟨[], by simp⟩ hallowed
  refine ⟨hanswers, ?_⟩
  have h : new = same := List.append_cancel_left (hn.symm.trans hs)
  have h' : new' = same := List.append_cancel_left (hn'.symm.trans hs')
  rw [h, h']

theorem prove_eq_explore_of_grandparent :
    let goal : Term := ⟨"grandparent", [.const "ivo", .var "W"], by decide, by decide⟩
    let pruned := prove kinship {} goal .empty 0
    (∀ goal, Event.reentered goal ∉ pruned.log) ∧ pruned.answers ≠ [] ∧
      pruned.answers = (explore kinship {} goal .empty 0).answers := by
  intro goal pruned
  have hpassed : (pruned.log.filter fun | .reentered _ => true | _ => false) = [] := by decide
  have hlog : ∀ goal, Event.reentered goal ∉ pruned.log := by
    intro goal hm
    exact absurd rfl (List.filter_eq_nil_iff.mp hpassed _ hm)
  obtain ⟨-, _, _, -, -, -, heq⟩ := prove_sublist_explore kinship {} goal .empty 0
  exact ⟨hlog, by decide, (heq hlog).1⟩

end Backchain.Search
