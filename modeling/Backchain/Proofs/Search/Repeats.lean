import Backchain.Proofs.Search.Places

/-!
# Repeated turns come to nothing

A goal is spent once it has been searched for, or if it lies too deep to be entered at all. A search
for a spent goal finds nothing and enters nothing. So the turns that count are the first ones: a
loop over answers or over rules gains nothing from a second turn of an item.
-/

namespace Backchain.Search

variable {α : Type} {kb : KnowledgeBase} {settings : Settings}

def Spent (settings : Settings) (depth : Nat) (goal : Term) (s : State) : Prop :=
  settings.depthBound < depth ∨ goal ∈ s.entered

theorem Spent.mono {depth : Nat} {goal : Term} {s t : State} (h : Spent settings depth goal s)
    (hst : s.Extends t) : Spent settings depth goal t :=
  h.imp_right hst.mem

theorem Call.enters_iff {call : Call} :
    call.Enters settings ↔ ¬ Spent settings call.depth call.goal call.state := by
  rw [Spent, not_or, Nat.not_lt]
  exact ⟨fun h => ⟨h.within, h.new⟩, fun h => ⟨h.1, h.2⟩⟩

theorem prove_of_spent {depth : Nat} {goal : Term} {s : State} (h : Spent settings depth goal s) :
    (prove kb settings goal s depth).answers = [] ∧
      (prove kb settings goal s depth).state.entered = s.entered := by
  rcases Nat.lt_or_ge settings.depthBound depth with hd | hd
  · rw [prove_of_bound_lt hd]
    exact ⟨rfl, rfl⟩
  · rw [prove_of_le_bound hd, if_pos (h.resolve_left (Nat.not_lt.mpr hd))]
    exact ⟨rfl, rfl⟩

theorem spent_prove (goal : Term) (s : State) (depth : Nat) :
    Spent settings depth goal (prove kb settings goal s depth).state := by
  rcases Nat.lt_or_ge settings.depthBound depth with hd | hd
  · exact .inl hd
  · exact .inr (mem_entered_prove hd goal s)

theorem turnState_of_not_mem [DecidableEq α] {search : α → State → Outcome} {items : List α}
    {earlier later : List α} {item : α} (h : items = earlier ++ item :: later)
    (hm : item ∉ earlier) (state : State) :
    turnState search items item state = (forEach search earlier state).state := by
  have hothers : ∀ other ∈ earlier, decide (other ≠ item) = true := by
    intro other ho
    simpa using ne_of_mem_of_not_mem ho hm
  have htake : items.takeWhile (· ≠ item) = earlier := by
    rw [h, List.takeWhile_append_of_pos hothers, List.takeWhile_cons_of_neg (by simp),
      List.append_nil]
  rw [turnState, htake]

theorem state_proveBody_nil (sub : Strategy) (goals : List Term) (s : State) :
    (proveBody sub goals [] s).state = s := by
  induction goals generalizing s with
  | nil => rfl
  | cons goal goals ih => exact ih s

theorem tryRule_of_unify? (sub : Strategy) {matching : Matching} {goal : Term} {rule : Rule}
    {seed : Substitution} (hu : unify? matching goal rule.head = some seed) (s : State) :
    (tryRule sub matching goal rule s).answers = (proveBody sub rule.body [seed] s).answers ∧
      (tryRule sub matching goal rule s).state = (proveBody sub rule.body [seed] s).state := by
  rw [← unify_eq_ok_iff] at hu
  simp only [tryRule, hu, and_self]

theorem tryRule_of_unify?_none {sub : Strategy} {matching : Matching} {goal : Term} {rule : Rule}
    (hu : unify? matching goal rule.head = none) (s : State) :
    (tryRule sub matching goal rule s).answers = [] ∧
      (tryRule sub matching goal rule s).state = s := by
  cases h : unify matching goal rule.head with
  | error mismatch => simp only [tryRule, h, and_self]
  | ok seed =>
    rw [unify_eq_ok_iff, hu] at h
    cases h

namespace Call

variable {call : Call} {goal : Term} {goals : List Term} {s : State}

theorem extend_of_spent (kb : KnowledgeBase) {bindings : Substitution}
    (h : Spent settings (call.depth + 1) (bindings.apply goal) s) :
    (extend (call.sub kb settings) goal bindings s).answers = [] ∧
      (extend (call.sub kb settings) goal bindings s).state.entered = s.entered := by
  obtain ⟨hnone, hs⟩ : (call.sub kb settings (bindings.apply goal) s).answers = [] ∧
      (call.sub kb settings (bindings.apply goal) s).state.entered = s.entered := prove_of_spent h
  exact ⟨by rw [extend, hnone, List.map_nil], hs⟩

/-- Where the first goal of a body is spent, the rule comes to nothing. -/
theorem proveBody_of_spent (kb : KnowledgeBase) {seed : Substitution}
    (h : Spent settings (call.depth + 1) (seed.apply goal) s) :
    (proveBody (call.sub kb settings) (goal :: goals) [seed] s).answers = [] ∧
      (proveBody (call.sub kb settings) (goal :: goals) [seed] s).state.entered = s.entered := by
  obtain ⟨hnone, hs⟩ := extend_of_spent kb h
  simp only [proveBody, forEach, hnone, List.append_nil, answers_proveBody_nil,
    state_proveBody_nil, true_and]
  exact hs

theorem spent_of_mem_bindings {earlier : List Substitution} {bindings : Substitution}
    (hb : bindings ∈ earlier) :
    Spent settings (call.depth + 1) (bindings.apply goal)
      (forEach (extend (call.sub kb settings) goal) earlier s).state := by
  obtain ⟨before, after, rfl⟩ := List.append_of_mem hb
  have hgrow : ∀ (bindings : Substitution) s,
      State.Extends s (extend (call.sub kb settings) goal bindings s).state :=
    fun bindings s => sub_extends (bindings.apply goal) s
  rw [forEach_append]
  exact (spent_prove (bindings.apply goal) _ _).mono (forEach_keeps .refl .trans hgrow after _)

theorem spent_of_mem_rules {earlier : List Rule} {rule : Rule} {seed : Substitution}
    (hr : rule ∈ earlier) (hu : unify? settings.matching call.goal rule.head = some seed)
    (hbody : rule.body = goal :: goals) :
    Spent settings (call.depth + 1) (seed.apply goal)
      (forEach (tryRule (call.sub kb settings) settings.matching call.goal) earlier s).state := by
  obtain ⟨before, after, rfl⟩ := List.append_of_mem hr
  have hgrow := (prove_justifies kb settings (call.depth + 1)).grows
  have hafter := forEach_keeps .refl .trans
    (tryRule_keeps .refl .trans hgrow settings.matching call.goal) after
  rw [forEach_append]
  refine Spent.mono ?_ (hafter _)
  rw [(tryRule_of_unify? _ hu _).2, hbody]
  exact (spent_prove (seed.apply goal) _ _).mono
    (proveBody_keeps .refl .trans sub_extends goals _ _)

end Call

end Backchain.Search
