import Backchain.Proofs.ActiveDomain
import Backchain.Proofs.Search.Derivation
import Backchain.Proofs.Search.Invariant

/-!
# A search invents nothing

Atoms travel from the query and the clauses into unifiers, from these into sub-goals, and back up
in the answers. None of these steps makes a new one, so over any set with the atoms of the clauses
goals stay goals of bodies with atoms of the set for their variables, and answers bind variables of
the set to its atoms.
-/

namespace Backchain.Search

section
variable {kb : KnowledgeBase} {atoms : Finset Atom} (matching : Matching)
  (hkb : ∀ t ∈ kb.terms, t.Over atoms)
include hkb

theorem closed_over {G : Term → Prop} (hG : ∀ goal, G goal → goal.Over atoms)
    (hbody : ∀ goal, kb.BodyInstance atoms goal → G goal) :
    Closed kb matching G (Substitution.Over atoms) where
  fact hf hg hu := unify?_over hu (hG _ hg) (hkb _ (KnowledgeBase.mem_terms_of_fact hf))
  head hr hg hu := unify?_over hu (hG _ hg) (hkb _ (KnowledgeBase.mem_terms_of_head hr))
  update hs ht := hs.update ht
  body {rule pattern _} hr hp hs := hbody _ ⟨rule, hr, pattern, hp,
    hs.mapsInto.apply_instanceOver (hkb _ (KnowledgeBase.mem_terms_of_body hr hp))⟩

theorem bodyInstance_closed :
    Closed kb matching (kb.BodyInstance atoms) (Substitution.Over atoms) :=
  closed_over matching hkb (fun _ hg => hg.isOver hkb) fun _ hg => hg

theorem opens_over {query : Term} (hq : query.Over atoms) :
    Opens kb matching query (kb.BodyInstance atoms) (Substitution.Over atoms)
      (Substitution.Over atoms) where
  fact hf hu := unify?_over hu hq (hkb _ (KnowledgeBase.mem_terms_of_fact hf))
  head hr hu := unify?_over hu hq (hkb _ (KnowledgeBase.mem_terms_of_head hr))
  update := (bodyInstance_closed matching hkb).update
  body := (bodyInstance_closed matching hkb).body

end

theorem over_of_mem_answers {kb : KnowledgeBase} {settings : Settings} {goal : Term} {state : State}
    {depth : Nat} {answer : Substitution}
    (h : answer ∈ (prove kb settings goal state depth).answers) : answer.Over (kb.atoms goal) := by
  have hkb : ∀ t ∈ kb.terms, t.Over (kb.atoms goal) := fun _ ht => KnowledgeBase.term_over ht
  have hclosed : Closed kb settings.matching (Term.Over (kb.atoms goal))
      (Substitution.Over (kb.atoms goal)) :=
    closed_over settings.matching hkb (fun _ hg => hg) fun _ hg => hg.isOver hkb
  exact hclosed.of_mem_answers KnowledgeBase.goal_over h

/-- All goals that are entered or cut off below the query are like a goal of some body, with a
symbol and with arguments, and these arguments occur in the query or in the clauses. So do the
variables that an answer binds, and the atoms that it binds them to. -/
theorem solve_invents_nothing (kb : KnowledgeBase) (settings : Settings) (query : Term) :
    let found := (solve kb settings query).value
    (∃ below, (prove kb settings query .empty 0).state.entered = query :: below ∧
      ∀ goal ∈ below ++ found.cutoffs.map Cutoff.goal,
        (∃ rule ∈ kb.rules, ∃ pattern ∈ rule.body,
          goal.symbol = pattern.symbol ∧ goal.arity = pattern.arity) ∧
        goal.symbol ≠ "" ∧ 1 ≤ goal.arity ∧ goal.Over (kb.atoms query)) ∧
      ∀ answer ∈ found.answers, answer.Over (kb.atoms query) := by
  have hkb : ∀ t ∈ kb.terms, t.Over (kb.atoms query) := fun _ ht => KnowledgeBase.term_over ht
  obtain ⟨⟨below, hentered, hbelow⟩, hanswers⟩ :=
    prove_allBelow (bodyInstance_closed settings.matching hkb)
      (opens_over settings.matching hkb KnowledgeBase.goal_over)
  refine ⟨⟨below, hentered, fun goal hm => ?_⟩, hanswers⟩
  have hover := (hbelow goal hm).isOver hkb
  obtain ⟨rule, hr, pattern, hp, hi⟩ := hbelow goal hm
  have hsymbol := hi.symbol_eq
  have harity := hi.arity_eq
  refine ⟨⟨rule, hr, pattern, hp, hsymbol, harity⟩, hsymbol ▸ pattern.symbol_ne, ?_, hover⟩
  exact harity ▸ List.length_pos_iff.mpr pattern.arguments_ne

theorem grandparent_invents_nothing :
    let query := grandparent (.const "ivo") (.var "W")
    let answer : Substitution :=
      ⟨[("X", .const "ivo"), ("W", .var "Y"), ("Z", .const "ana"), ("Y", .const "luka")]⟩
    let below := [parent (.const "ivo") (.var "Z"), parent (.const "ana") (.var "Y")]
    (prove kinship {} query .empty 0).state.entered = query :: below ∧
      parent (.const "ana") (.var "Y") ∈ below ∧
      (parent (.const "ana") (.var "Y")).Over (kinship.atoms query) ∧
      answer ∈ (solve kinship {} query).value.answers ∧ answer.Over (kinship.atoms query) := by
  intro query answer below
  have hentered : (prove kinship {} query .empty 0).state.entered = query :: below := by decide
  have hm : parent (.const "ana") (.var "Y") ∈ below := List.mem_cons_of_mem _ List.mem_cons_self
  have ha : answer ∈ (solve kinship {} query).value.answers := by decide
  obtain ⟨⟨below', hentered', hbelow⟩, hanswers⟩ := solve_invents_nothing kinship {} query
  obtain rfl : below = below' := List.tail_eq_of_cons_eq (hentered.symm.trans hentered')
  obtain ⟨-, -, -, hover⟩ := hbelow _ (List.mem_append_left _ hm)
  exact ⟨hentered, hm, hover, ha, hanswers answer ha⟩

end Backchain.Search
