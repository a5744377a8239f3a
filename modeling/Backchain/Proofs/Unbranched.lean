import Backchain.Proofs.Entailment

/-!
# Rules with one goal at most

Where no body has more than one goal, the goals form a graph and the search goes through it depth
first. It has no answer only if it has none to any goal on the way. Unless it has cut some off, the
goals entered are then closed: no fact is among them, and a rule leads from one of them to others of
them only. So none of them is entailed, and the search decides entailment, whatever cycles the rules
have.
-/

namespace Backchain

/-- Ground facts, and rules that lead from a goal to one other at most. -/
structure KnowledgeBase.Unbranched (kb : KnowledgeBase) : Prop where
  facts_ground : ∀ fact ∈ kb.facts, fact.Ground
  heads_linear : ∀ rule ∈ kb.rules, rule.head.Linear
  body_variables : ∀ rule ∈ kb.rules, ∀ goal ∈ rule.body,
    ∀ x ∈ goal.varNames, x ∈ rule.head.varNames
  body_short : ∀ rule ∈ kb.rules, rule.body.length ≤ 1

theorem KnowledgeBase.Unbranched.scoped {kb : KnowledgeBase} (hk : kb.Unbranched) :
    kb.Scoped fun _ _ => True where
  facts_ground := hk.facts_ground
  heads_linear := hk.heads_linear
  body_variables := hk.body_variables
  head _ _ _ _ := trivial
  body _ _ _ _ _ _ := trivial
  spared rule hr done goal next rest hbody := by
    have hshort := hk.body_short rule hr
    simp only [hbody, List.length_append, List.length_cons] at hshort
    omega

namespace Search

variable {α : Type} {kb : KnowledgeBase} {matching : Matching}

-- ---------------------------------------------------------------------------
-- Goals that lead to no answer
-- ---------------------------------------------------------------------------

def LeadsInto (matching : Matching) (goal : Term) (entered : List Term) (rule : Rule) : Prop :=
  ∀ seed, unify? matching goal rule.head = some seed →
    ∃ next, rule.body = [next] ∧ seed.apply next ∈ entered

/-- No fact answers the goal, and all rules lead from it to goals that were entered. -/
structure Barren (kb : KnowledgeBase) (matching : Matching) (entered : List Term) (goal : Term) :
    Prop where
  facts : ∀ fact ∈ kb.facts, unify? matching goal fact = none
  rules : ∀ rule ∈ kb.rules, LeadsInto matching goal entered rule

theorem LeadsInto.mono {goal : Term} {rule : Rule} {entered entered' : List Term}
    (h : LeadsInto matching goal entered rule) (hsub : entered ⊆ entered') :
    LeadsInto matching goal entered' rule := by
  intro seed hu
  obtain ⟨next, hbody, hm⟩ := h seed hu
  exact ⟨next, hbody, hsub hm⟩

theorem Barren.mono {goal : Term} {entered entered' : List Term}
    (h : Barren kb matching entered goal) (hsub : entered ⊆ entered') :
    Barren kb matching entered' goal :=
  ⟨h.facts, fun rule hr => (h.rules rule hr).mono hsub⟩

/-- What the rules lead to from barren goals is barren. So no derivation ends in one. -/
theorem not_entails_of_barren (hk : kb.Unbranched) (hc : kb.Conventional) {entered : List Term}
    (h : ∀ goal ∈ entered, Barren kb .sameSymbol entered goal) {goal : Term}
    (he : kb.Entails goal) (hgc : goal.Conventional) : goal ∉ entered := by
  induction he with
  | fact hf =>
    intro hm
    have hnone := (h _ hm).facts _ hf
    rw [unify_eq_ok_iff.mp (unify_self .sameSymbol _)] at hnone
    cases hnone
  | @rule rule θ hr hgoals ih =>
    intro hm
    obtain ⟨seed, hu, hbinds⟩ := exists_unify?_instance (hc.head hr) hgc .sameSymbol
    obtain ⟨next, hbody, hin⟩ := (h _ hm).rules rule hr seed hu
    have hnext : next ∈ rule.body := by simp [hbody]
    have hvars := hk.body_variables rule hr next hnext
    have happly : seed.apply next = next.ground θ :=
      Substitution.apply_eq_ground fun x hx => hbinds.get? (hvars x hx)
    have hconv : (next.ground θ).Conventional :=
      (hc.body hr hnext).ground fun x hx => Term.conventional_value hgc (hvars x hx)
    exact ih next hnext hconv (happly ▸ hin)

-- ---------------------------------------------------------------------------
-- Searches that find nothing
-- ---------------------------------------------------------------------------

def BarrenSince (kb : KnowledgeBase) (matching : Matching) (before after : State) : Prop :=
  ∀ goal ∈ after.entered, goal ∉ before.entered → Barren kb matching after.entered goal

theorem BarrenSince.refl (s : State) : BarrenSince kb matching s s :=
  fun _ hm hn => absurd hm hn

theorem BarrenSince.trans {a b c : State} (h : BarrenSince kb matching a b)
    (h' : BarrenSince kb matching b c) (hbc : b.Extends c) : BarrenSince kb matching a c := by
  intro goal hm hn
  by_cases hb : goal ∈ b.entered
  · exact (h goal hb hn).mono hbc.entered.subset
  · exact h' goal hm hb

/-- If the run has no answer and cuts nothing off, its last state has the property, and it has
entered barren goals only. -/
def Exhausts (kb : KnowledgeBase) (matching : Matching) (run : State → Outcome)
    (P : State → Prop) : Prop :=
  ∀ s, (run s).answers = [] → (run s).state.cutoffs = s.cutoffs →
    P (run s).state ∧ BarrenSince kb matching s (run s).state

theorem forEach_exhausts {search : α → State → Outcome} {P : α → State → Prop}
    (hgrow : ∀ item s, State.Extends s (search item s).state)
    (hmono : ∀ item a b, a.Extends b → P item a → P item b) {items : List α}
    (h : ∀ item ∈ items, Exhausts kb matching (search item) (P item)) :
    Exhausts kb matching (forEach search items) fun s => ∀ item ∈ items, P item s := by
  induction items with
  | nil => exact fun s _ _ => ⟨nofun, .refl s⟩
  | cons item items ih =>
    intro s ha hcut
    obtain ⟨ha, ha'⟩ := List.append_eq_nil_iff.mp ha
    have hrest := forEach_keeps .refl .trans hgrow items (search item s).state
    obtain ⟨hcut, hcut'⟩ := (hgrow item s).cutoffs_eq hrest hcut
    obtain ⟨hitem, hfirst⟩ := h item List.mem_cons_self s ha hcut
    obtain ⟨hitems, hlast⟩ := ih (fun i hi => h i (List.mem_cons_of_mem _ hi)) _ ha' hcut'
    exact ⟨List.forall_mem_cons.mpr ⟨hmono item _ _ hrest hitem, hitems⟩,
      hfirst.trans hlast hrest⟩

section
variable {sub : Strategy} (hk : kb.Unbranched)
  (h : ∀ goal, Exhausts kb matching (sub goal) fun s => goal ∈ s.entered)
include hk h

theorem tryRule_exhausts (goal : Term) {rule : Rule} (hr : rule ∈ kb.rules) :
    Exhausts kb matching (tryRule sub matching goal rule)
      fun s => LeadsInto matching goal s.entered rule := by
  intro s ha hcut
  unfold tryRule at ha hcut ⊢
  cases hu : unify matching goal rule.head with
  | error mismatch =>
    refine ⟨fun seed hseed => ?_, .refl s⟩
    rw [← unify_eq_ok_iff, hu] at hseed
    cases hseed
  | ok seed =>
    simp only [hu] at ha hcut ⊢
    have hshort := hk.body_short rule hr
    match hbody : rule.body with
    | [] => simp [hbody, proveBody] at ha
    | [next] =>
      simp only [hbody, proveBody, forEach, extend, List.append_nil, List.map_eq_nil_iff]
        at ha hcut ⊢
      obtain ⟨hnext, hbarren⟩ := h (seed.apply next) s ha hcut
      refine ⟨fun other hother => ⟨next, hbody, ?_⟩, hbarren⟩
      rw [← unify_eq_ok_iff, hu] at hother
      exact Except.ok.inj hother ▸ hnext
    | _ :: _ :: _ => simp [hbody] at hshort

theorem tryAll_exhausts (hgrow : ∀ goal s, State.Extends s (sub goal s).state) (goal : Term) :
    Exhausts kb matching (tryAll sub matching kb goal)
      fun s => Barren kb matching s.entered goal := by
  intro s ha hcut
  simp only [tryAll, answers_tryFacts, state_tryFacts, List.append_eq_nil_iff,
    List.filterMap_eq_nil_iff] at ha hcut ⊢
  have hturn := tryRule_keeps .refl .trans hgrow matching goal
  have hmono : ∀ rule (a b : State), a.Extends b → LeadsInto matching goal a.entered rule →
      LeadsInto matching goal b.entered rule := fun rule a b hab hl => hl.mono hab.entered.subset
  obtain ⟨hrules, hbarren⟩ :=
    forEach_exhausts hturn hmono (fun rule hr => tryRule_exhausts hk h goal hr) s ha.2 hcut
  exact ⟨⟨ha.1, hrules⟩, hbarren⟩

end

theorem proveWithin_exhausts (hk : kb.Unbranched) (settings : Settings) (levels depth : Nat)
    (goal : Term) :
    Exhausts kb settings.matching (proveWithin kb settings levels depth goal)
      fun s => goal ∈ s.entered := by
  induction levels generalizing depth goal with
  | zero =>
    intro s _ hcut
    simp [proveWithin, State.cutOff] at hcut
  | succ levels ih =>
    intro s ha hcut
    simp only [proveWithin] at ha hcut ⊢
    split
    · rename_i hgoal
      exact ⟨hgoal, .refl s⟩
    · rename_i hgoal
      rw [if_neg hgoal] at ha hcut
      have hgrow := proveWithin_extends kb settings levels (depth + 1)
      have hin : goal ∈ (s.enter goal).entered := List.mem_append_right _ List.mem_cons_self
      obtain ⟨hbarren, hsince⟩ := tryAll_exhausts hk (ih (depth + 1)) hgrow goal _ ha hcut
      refine ⟨(tryAll_keeps .refl .trans hgrow settings.matching kb goal _).mem hin, ?_⟩
      intro other hm hn
      by_cases ho : other ∈ (s.enter goal).entered
      · have heq : other = goal := by simpa [State.enter, hn] using ho
        exact heq ▸ hbarren
      · exact hsince other hm ho

/-- If nothing is cut off, a ground goal has an answer exactly if it is entailed. -/
theorem answers_ne_nil_iff_entails {settings : Settings} {goal : Term} (hk : kb.Unbranched)
    (hc : kb.Conventional) (hm : settings.matching = .sameSymbol) (hg : goal.Ground)
    (hgc : goal.Conventional) (hcut : (solve kb settings goal).value.cutoffs = []) :
    (solve kb settings goal).value.answers ≠ [] ↔ kb.Entails goal := by
  constructor
  · intro hne
    obtain ⟨answer, ha⟩ := List.exists_mem_of_ne_nil _ hne
    obtain ⟨tree, -⟩ := (prove_justifies kb settings 0).derives goal .empty answer ha
    exact ((hm ▸ tree).entails_of_scoped hk.scoped hc hg hgc).1
  · intro he hnil
    obtain ⟨hin, hsince⟩ := proveWithin_exhausts hk settings _ 0 goal .empty hnil hcut
    have hbarren : ∀ other ∈ (prove kb settings goal .empty 0).state.entered,
        Barren kb .sameSymbol (prove kb settings goal .empty 0).state.entered other :=
      fun other ho => hm ▸ hsince other ho List.not_mem_nil
    exact not_entails_of_barren hk hc hbarren he hgc hin

def esteem : KnowledgeBase where
  facts := [⟨"praised", [.const "mara"], by decide, by decide⟩]
  rules :=
    [{ head := ⟨"honoured", [.var "One"], by decide, by decide⟩
       body := [⟨"praised", [.var "One"], by decide, by decide⟩] },
      { head := ⟨"praised", [.var "One"], by decide, by decide⟩
        body := [⟨"honoured", [.var "One"], by decide, by decide⟩] }]

theorem unbranched_esteem : esteem.Unbranched where
  facts_ground := by decide
  heads_linear := by decide
  body_variables := by decide
  body_short := by decide

theorem answers_ne_nil_iff_entails_honoured :
    let honoured : Atom → Term := fun one => ⟨"honoured", [one], by decide, by simp⟩
    (solve esteem {} (honoured (.const "mara"))).value.answers ≠ [] ∧
      esteem.Entails (honoured (.const "mara")) ∧
      (solve esteem {} (honoured (.const "edin"))).value.answers = [] ∧
      ¬ esteem.Entails (honoured (.const "edin")) := by
  intro honoured
  have hc : esteem.Conventional := by decide +kernel
  have hm : Settings.matching {} = .sameSymbol := rfl
  have hfound : (solve esteem {} (honoured (.const "mara"))).value.answers ≠ [] := by decide
  have hnone : (solve esteem {} (honoured (.const "edin"))).value.answers = [] := by decide
  have hmara := answers_ne_nil_iff_entails unbranched_esteem hc hm
    (by decide : (honoured (.const "mara")).Ground) (by decide +kernel) (by decide)
  have hedin := answers_ne_nil_iff_entails unbranched_esteem hc hm
    (by decide : (honoured (.const "edin")).Ground) (by decide +kernel) (by decide)
  exact ⟨hfound, hmara.mp hfound, hnone, fun he => hedin.mpr he hnone⟩

end Search

end Backchain
