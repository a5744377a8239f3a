import Backchain.Search.BackwardChaining

/-!
# Two runs in lockstep

Two strategies that answer each goal alike, from states that are related, do so throughout a
search: the proof of a body and the trial of all clauses make the same calls in the same order
and leave related states. It is enough that they answer alike while the first logs nothing but
allowed events, if that is all the whole run logs.
-/

namespace Backchain.Search

variable {α : Type}

/-- From related states, and while the first run logs allowed events only, both have the same
answers and leave related states. -/
def Agree (allowed : Event → Prop) (R : State → State → Prop) (run run' : State → Outcome) :
    Prop :=
  ∀ s s', R s s' → (∀ event ∈ (run s).log, allowed event) →
    (run s).answers = (run' s').answers ∧ R (run s).state (run' s').state

def AgreeThroughout (run run' : State → Outcome) : Prop := Agree (fun _ => True) Eq run run'

theorem AgreeThroughout.apply {run run' : State → Outcome} (h : AgreeThroughout run run')
    (s : State) : (run s).answers = (run' s).answers ∧ (run s).state = (run' s).state :=
  h s s rfl fun _ _ => trivial

section
variable {allowed : Event → Prop} {R : State → State → Prop} {sub sub' : Strategy}

theorem forEach_agree {search search' : α → State → Outcome} {items : List α}
    (h : ∀ item ∈ items, Agree allowed R (search item) (search' item)) :
    Agree allowed R (forEach search items) (forEach search' items) := by
  induction items with
  | nil => exact fun s s' hr _ => ⟨rfl, hr⟩
  | cons item items ih =>
    intro s s' hr hlog
    obtain ⟨hfirst, hrest⟩ := List.forall_mem_append.mp hlog
    obtain ⟨ha, hr⟩ := h item List.mem_cons_self s s' hr hfirst
    obtain ⟨ha', hr⟩ := ih (fun i hi => h i (List.mem_cons_of_mem _ hi)) _ _ hr hrest
    refine ⟨?_, hr⟩
    simp only [forEach, ha, ha']

theorem extend_agree {goal : Term} {sofar : Substitution}
    (h : Agree allowed R (sub (sofar.apply goal)) (sub' (sofar.apply goal))) :
    Agree allowed R (extend sub goal sofar) (extend sub' goal sofar) := by
  intro s s' hr hlog
  obtain ⟨ha, hr⟩ := h s s' hr hlog
  exact ⟨congrArg (List.map sofar.update) ha, hr⟩

theorem proveBody_agree {goals : List Term}
    (h : ∀ goal ∈ goals, ∀ sofar : Substitution,
      Agree allowed R (sub (sofar.apply goal)) (sub' (sofar.apply goal)))
    (sofar : List Substitution) :
    Agree allowed R (proveBody sub goals sofar) (proveBody sub' goals sofar) := by
  induction goals generalizing sofar with
  | nil => exact fun s s' hr _ => ⟨rfl, hr⟩
  | cons goal goals ih =>
    intro s s' hr hlog
    obtain ⟨hfirst, hrest⟩ := List.forall_mem_append.mp hlog
    obtain ⟨ha, hr⟩ :=
      forEach_agree (fun sofar _ => extend_agree (h goal List.mem_cons_self sofar)) s s' hr hfirst
    obtain ⟨ha', hr⟩ := ih (fun g hg => h g (List.mem_cons_of_mem _ hg)) _ _ _ hr hrest
    simp only [proveBody, ← ha]
    exact ⟨ha', hr⟩

theorem tryRule_agree {rule : Rule}
    (h : ∀ goal ∈ rule.body, ∀ sofar : Substitution,
      Agree allowed R (sub (sofar.apply goal)) (sub' (sofar.apply goal)))
    (matching : Matching) (goal : Term) :
    Agree allowed R (tryRule sub matching goal rule) (tryRule sub' matching goal rule) := by
  intro s s' hr hlog
  unfold tryRule at hlog ⊢
  cases hu : unify matching goal rule.head with
  | error mismatch => exact ⟨rfl, hr⟩
  | ok seed =>
    simp only [hu, List.forall_mem_cons] at hlog ⊢
    exact proveBody_agree h [seed] s s' hr hlog.2

theorem tryAll_agree {kb : KnowledgeBase}
    (h : ∀ rule ∈ kb.rules, ∀ goal ∈ rule.body, ∀ sofar : Substitution,
      Agree allowed R (sub (sofar.apply goal)) (sub' (sofar.apply goal)))
    (matching : Matching) (goal : Term) :
    Agree allowed R (tryAll sub matching kb goal) (tryAll sub' matching kb goal) := by
  intro s s' hr hlog
  simp only [tryAll, answers_tryFacts, state_tryFacts] at hlog ⊢
  obtain ⟨-, hrules⟩ := List.forall_mem_append.mp hlog
  obtain ⟨ha, hr⟩ :=
    forEach_agree (fun rule hrule => tryRule_agree (h rule hrule) matching goal) s s' hr hrules
  exact ⟨congrArg _ ha, hr⟩

end

end Backchain.Search
