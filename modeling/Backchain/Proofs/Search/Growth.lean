import Backchain.Search.BackwardChaining

/-!
# A search only adds to its state

A relation between the states before and after a run, given what the run logs, holds of a loop as
soon as it holds of every turn, if it passes to runs that follow one upon the other. So it passes
from a strategy to the proof of a body and to the trial of all clauses. A relation that is
reflexive and transitive is of this kind, whatever the log. Growth at the ends of both lists is
one, and every search keeps it.
-/

namespace Backchain.Search

variable {α : Type}

structure State.Extends (before after : State) : Prop where
  entered : before.entered <+: after.entered
  cutoffs : before.cutoffs <+: after.cutoffs

namespace State.Extends

variable {a b c : State}

theorem refl (s : State) : s.Extends s := ⟨List.prefix_rfl, List.prefix_rfl⟩

theorem trans (h : a.Extends b) (h' : b.Extends c) : a.Extends c :=
  ⟨h.entered.trans h'.entered, h.cutoffs.trans h'.cutoffs⟩

theorem mem (h : a.Extends b) (hm : goal ∈ a.entered) : goal ∈ b.entered :=
  h.entered.subset hm

theorem cutoffs_eq (h : a.Extends b) (h' : b.Extends c) (heq : c.cutoffs = a.cutoffs) :
    b.cutoffs = a.cutoffs ∧ c.cutoffs = b.cutoffs := by
  have hle : b.cutoffs.length ≤ a.cutoffs.length := heq ▸ h'.cutoffs.length_le
  have hba : b.cutoffs = a.cutoffs :=
    (h.cutoffs.eq_of_length (Nat.le_antisymm h.cutoffs.length_le hle)).symm
  exact ⟨hba, heq.trans hba.symm⟩

theorem enter (s : State) (goal : Term) : s.Extends (s.enter goal) :=
  ⟨List.prefix_append _ _, List.prefix_rfl⟩

theorem cutOff (s : State) (cutoff : Cutoff) : s.Extends (s.cutOff cutoff) :=
  ⟨List.prefix_rfl, List.prefix_append _ _⟩

end State.Extends

-- ---------------------------------------------------------------------------
-- What each turn keeps, the loop keeps
-- ---------------------------------------------------------------------------

/-- A relation between the states before and after a run, given its log, that passes to runs which
follow one upon the other. Matches and clashes change nothing. -/
structure Cumulative (R : List Event → State → State → Prop) : Prop where
  nil : ∀ s, R [] s s
  append : ∀ {log log' a b c}, R log a b → R log' b c → R (log ++ log') a c
  matched : ∀ goal rule seed s, R [.matched goal rule seed] s s
  clash : ∀ goal candidate left right s, R [.clash goal candidate left right] s s

section
variable {R : List Event → State → State → Prop} (hR : Cumulative R)
include hR

theorem forEach_cumulative {search : α → State → Outcome}
    (h : ∀ item s, R (search item s).log s (search item s).state) (items : List α)
    (state : State) :
    R (forEach search items state).log state (forEach search items state).state := by
  induction items generalizing state with
  | nil => exact hR.nil state
  | cons item items ih => exact hR.append (h item state) (ih _)

theorem mismatchLog_cumulative (goal candidate : Term) (mismatch : Mismatch) (s : State) :
    R (mismatchLog goal candidate mismatch) s s := by
  cases mismatch with
  | clash left right => exact hR.clash goal candidate left right s
  | arity => exact hR.nil s
  | symbol => exact hR.nil s

theorem tryFact_cumulative (matching : Matching) (goal fact : Term) (s : State) :
    R (tryFact matching goal fact s).log s (tryFact matching goal fact s).state := by
  unfold tryFact
  split
  · exact mismatchLog_cumulative hR _ _ _ s
  · exact hR.nil s

variable {subsearch : Strategy} (h : ∀ goal s, R (subsearch goal s).log s (subsearch goal s).state)
include h

theorem proveBody_cumulative (goals : List Term) (sofar : List Substitution) (state : State) :
    R (proveBody subsearch goals sofar state).log state
      (proveBody subsearch goals sofar state).state := by
  induction goals generalizing sofar state with
  | nil => exact hR.nil state
  | cons goal goals ih =>
    have hturn : ∀ sofar s, R (extend subsearch goal sofar s).log s
        (extend subsearch goal sofar s).state :=
      fun sofar s => h (sofar.apply goal) s
    exact hR.append (forEach_cumulative hR hturn sofar state) (ih _ _)

theorem tryRule_cumulative (matching : Matching) (goal : Term) (rule : Rule) (state : State) :
    R (tryRule subsearch matching goal rule state).log state
      (tryRule subsearch matching goal rule state).state := by
  unfold tryRule
  split
  · exact mismatchLog_cumulative hR _ _ _ state
  · exact hR.append (hR.matched _ _ _ state) (proveBody_cumulative hR h _ _ _)

theorem tryAll_cumulative (matching : Matching) (kb : KnowledgeBase) (goal : Term)
    (state : State) :
    R (tryAll subsearch matching kb goal state).log state
      (tryAll subsearch matching kb goal state).state :=
  hR.append (forEach_cumulative hR (tryFact_cumulative hR matching goal) kb.facts state)
    (forEach_cumulative hR (tryRule_cumulative hR h matching goal) kb.rules _)

end

section
variable {R : State → State → Prop} (refl : ∀ s, R s s)
  (trans : ∀ {a b c}, R a b → R b c → R a c)
include refl trans

theorem cumulative_of_states : Cumulative fun _ => R :=
  ⟨refl, trans, fun _ _ _ => refl, fun _ _ _ _ => refl⟩

theorem forEach_keeps {search : α → State → Outcome}
    (h : ∀ item s, R s (search item s).state) (items : List α) (state : State) :
    R state (forEach search items state).state :=
  forEach_cumulative (cumulative_of_states refl trans) h items state

variable {subsearch : Strategy} (h : ∀ goal s, R s (subsearch goal s).state)
include h

theorem proveBody_keeps (goals : List Term) (sofar : List Substitution) (state : State) :
    R state (proveBody subsearch goals sofar state).state :=
  proveBody_cumulative (cumulative_of_states refl trans) h goals sofar state

theorem tryRule_keeps (matching : Matching) (goal : Term) (rule : Rule) (state : State) :
    R state (tryRule subsearch matching goal rule state).state :=
  tryRule_cumulative (cumulative_of_states refl trans) h matching goal rule state

theorem tryAll_keeps (matching : Matching) (kb : KnowledgeBase) (goal : Term) (state : State) :
    R state (tryAll subsearch matching kb goal state).state :=
  tryAll_cumulative (cumulative_of_states refl trans) h matching kb goal state

end

theorem proveWithin_extends (kb : KnowledgeBase) (settings : Settings) (levels depth : Nat)
    (goal : Term) (state : State) :
    state.Extends (proveWithin kb settings levels depth goal state).state := by
  induction levels generalizing depth goal state with
  | zero => exact .cutOff state _
  | succ levels ih =>
    simp only [proveWithin]
    split
    · exact .refl state
    · exact (State.Extends.enter state goal).trans
        (tryAll_keeps .refl .trans (ih (depth + 1)) _ _ _ _)

-- ---------------------------------------------------------------------------
-- Where an answer of a loop comes from
-- ---------------------------------------------------------------------------

/-- An answer of a loop is an answer of one of its turns, which starts after the loop does and
ends before it. -/
theorem mem_answers_forEach {search : α → State → Outcome}
    (h : ∀ item s, State.Extends s (search item s).state) {items : List α} {state : State}
    {answer : Substitution} (ha : answer ∈ (forEach search items state).answers) :
    ∃ item ∈ items, ∃ mid, state.Extends mid ∧ answer ∈ (search item mid).answers ∧
      (search item mid).state.Extends (forEach search items state).state := by
  obtain ⟨earlier, item, later, rfl, hturn⟩ := exists_turn_of_mem_answers ha
  have hbefore := forEach_keeps .refl .trans h earlier state
  refine ⟨item, List.mem_append_right _ List.mem_cons_self, _, hbefore, hturn, ?_⟩
  rw [forEach_append]
  exact forEach_keeps .refl .trans h later _

end Backchain.Search
