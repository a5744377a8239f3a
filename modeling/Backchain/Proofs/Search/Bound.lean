import Backchain.Proofs.Search.Derivation
import Backchain.Proofs.Search.Lockstep

/-!
# A bound that is not met does not matter

The log of a search tells of the goals that it cuts off, one by one and in the order in which the
state records them. So a search whose state records none logs none, and a search with a higher bound
makes the same calls: it has the same answers and leaves the same state.
-/

namespace Backchain

def Event.cutOff? : Event → Option (Term × Nat)
  | .cutOff goal bound => some (goal, bound)
  | _ => none

namespace Search

-- ---------------------------------------------------------------------------
-- What the log tells of
-- ---------------------------------------------------------------------------

/-- The second state has what the first has cut off, and then the goals that the log tells of. -/
def Tells (log : List Event) (before after : State) : Prop :=
  ∃ new, after.cutoffs = before.cutoffs ++ new ∧
    log.filterMap Event.cutOff? = new.map fun cutoff => (cutoff.goal, cutoff.bound)

namespace Tells

variable {a b c : State} {log log' : List Event}

theorem nil (s : State) : Tells [] s s := ⟨[], by simp⟩

theorem append (h : Tells log a b) (h' : Tells log' b c) : Tells (log ++ log') a c := by
  obtain ⟨new, hnew, hlog⟩ := h
  obtain ⟨more, hmore, hlog'⟩ := h'
  exact ⟨new ++ more, by simp [hmore, hnew], by simp [hlog, hlog']⟩

theorem single {event : Event} (he : event.cutOff? = none) (s : State) : Tells [event] s s :=
  ⟨[], by simp [he]⟩

theorem quiet (h : Tells log a b) (heq : b.cutoffs = a.cutoffs) :
    ∀ event ∈ log, event.cutOff? = none := by
  obtain ⟨new, hnew, hlog⟩ := h
  obtain rfl : new = [] := List.append_right_eq_self.mp (hnew.symm.trans heq)
  exact List.filterMap_eq_nil_iff.mp hlog

end Tells

theorem tells_cumulative : Cumulative Tells where
  nil := Tells.nil
  append := Tells.append
  matched _ _ _ s := .single rfl s
  clash _ _ _ _ s := .single rfl s

theorem proveWithin_tells (kb : KnowledgeBase) (settings : Settings) (levels depth : Nat)
    (goal : Term) (state : State) :
    Tells (proveWithin kb settings levels depth goal state).log state
      (proveWithin kb settings levels depth goal state).state := by
  induction levels generalizing depth goal state with
  | zero => exact ⟨[⟨goal, depth, settings.depthBound⟩], rfl, rfl⟩
  | succ levels ih =>
    simp only [proveWithin]
    split
    · exact .single rfl state
    · exact tryAll_cumulative tells_cumulative (ih (depth + 1)) settings.matching kb goal
        (state.enter goal)

-- ---------------------------------------------------------------------------
-- A higher bound
-- ---------------------------------------------------------------------------

/-- As long as the search with fewer levels cuts nothing off, the one with more does the same. -/
theorem proveWithin_agree_of_le (kb : KnowledgeBase) {settings settings' : Settings}
    (hm : settings'.matching = settings.matching) {levels levels' : Nat} (hl : levels ≤ levels')
    (depth : Nat) (goal : Term) :
    Agree (fun event => event.cutOff? = none) Eq (proveWithin kb settings levels depth goal)
      (proveWithin kb settings' levels' depth goal) := by
  induction levels generalizing levels' depth goal with
  | zero => exact fun s s' _ hlog => nomatch hlog _ List.mem_cons_self
  | succ levels ih =>
    obtain ⟨levels', rfl⟩ := Nat.exists_eq_add_of_le' (Nat.lt_of_lt_of_le levels.succ_pos hl)
    rintro s _ rfl hlog
    simp only [proveWithin, hm] at hlog ⊢
    split
    · exact ⟨rfl, rfl⟩
    · rename_i hgoal
      rw [if_neg hgoal] at hlog
      exact tryAll_agree (fun _ _ _ _ _ => ih (Nat.le_of_succ_le_succ hl) _ _) settings.matching
        goal _ _ rfl hlog

theorem proveWithin_eq_of_cutoffs_eq {kb : KnowledgeBase} {settings settings' : Settings}
    (hm : settings'.matching = settings.matching) {levels levels' : Nat} (hl : levels ≤ levels')
    {depth : Nat} {goal : Term} {state : State}
    (h : (proveWithin kb settings levels depth goal state).state.cutoffs = state.cutoffs) :
    (proveWithin kb settings' levels' depth goal state).answers =
        (proveWithin kb settings levels depth goal state).answers ∧
      (proveWithin kb settings' levels' depth goal state).state =
        (proveWithin kb settings levels depth goal state).state := by
  have hquiet := (proveWithin_tells kb settings levels depth goal state).quiet h
  obtain ⟨hanswers, hstate⟩ :=
    proveWithin_agree_of_le kb hm hl depth goal state state rfl hquiet
  exact ⟨hanswers.symm, hstate.symm⟩

theorem prove_eq_of_cutoffs_eq {settings settings' : Settings}
    (hm : settings'.matching = settings.matching)
    (hb : settings.depthBound ≤ settings'.depthBound) (kb : KnowledgeBase) (goal : Term)
    (state : State) (depth : Nat)
    (h : (prove kb settings goal state depth).state.cutoffs = state.cutoffs) :
    (prove kb settings' goal state depth).answers = (prove kb settings goal state depth).answers ∧
      (prove kb settings' goal state depth).state = (prove kb settings goal state depth).state := by
  have hlevels : settings.depthBound + 1 - depth ≤ settings'.depthBound + 1 - depth := by omega
  exact proveWithin_eq_of_cutoffs_eq hm hlevels h

theorem prove_grandparent_eq_of_bound :
    let goal : Term := ⟨"grandparent", [.const "ivo", .var "W"], by decide, by decide⟩
    let state : State := State.empty.enter (parent (.var "X") (.var "Y"))
    let low := prove kinship { maxDepth := 3 } goal state 2
    let high := prove kinship { maxDepth := 30 } goal state 2
    low.state.cutoffs = state.cutoffs ∧ low.answers ≠ [] ∧ high.answers = low.answers ∧
      high.state = low.state := by
  intro goal state low high
  have hcut : low.state.cutoffs = state.cutoffs := by decide
  have hne : low.answers ≠ [] := by decide
  have hmatching : Settings.matching { maxDepth := 30 } = Settings.matching { maxDepth := 3 } := rfl
  have hbound : Settings.depthBound { maxDepth := 3 } ≤ Settings.depthBound { maxDepth := 30 } := by
    decide
  exact ⟨hcut, hne, prove_eq_of_cutoffs_eq hmatching hbound kinship goal state 2 hcut⟩

end Search

end Backchain
