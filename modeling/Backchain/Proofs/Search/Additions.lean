import Backchain.Proofs.Search.Places
import Backchain.Reasoner

/-!
# Searches with more clauses

A derivation stays one when clauses are added, and it keeps its places. Still an answer can be lost:
a goal of a body that had no answer may have one now, so the search goes on to the goals after it
and enters them there, although a later goal fails. Where one of them is needed in another place it
is turned away. Nothing but that loses an answer.
-/

namespace Backchain

namespace KnowledgeBase

theorem facts_subset_add (kb : KnowledgeBase) (clause : Clause) :
    kb.facts ⊆ (kb.add clause).facts := by
  cases clause with
  | fact fact => exact List.subset_append_left _ _
  | rule rule => exact List.Subset.refl _

theorem rules_subset_add (kb : KnowledgeBase) (clause : Clause) :
    kb.rules ⊆ (kb.add clause).rules := by
  cases clause with
  | fact fact => exact List.Subset.refl _
  | rule rule => exact List.subset_append_left _ _

end KnowledgeBase

namespace Reasoner

open Search

/-- Whatever is told, a goal that had answers is still satisfied, unless for each of them the guard
against entering a goal twice now turns away some goal of a derivation at a place where it was
entered. -/
theorem satisfied_or_turnsAwayAt_of_tell (reasoner : Reasoner) (clause : Clause) (goal : Term) :
    let told := (reasoner.tell clause).value
    (told.ask goal).value.satisfied = true ∨
      ∀ answer ∈ (reasoner.ask goal).value.answers,
        ∃ tree : Derivation reasoner.knowledge reasoner.settings.matching goal answer,
          (∀ node ∈ tree.places,
            EntersAt reasoner.knowledge reasoner.settings ⟨goal, .empty, 0⟩ node.1 node.2) ∧
          ∃ node ∈ tree.places,
            TurnsAwayAt told.knowledge told.settings ⟨goal, .empty, 0⟩ node.1 node.2 := by
  intro told
  rw [Findings.satisfied_iff]
  by_cases hnil : (told.ask goal).value.answers = []
  · refine .inr fun answer ha => ?_
    have hrun : answer ∈
        (Call.run reasoner.knowledge reasoner.settings ⟨goal, .empty, 0⟩).answers := ha
    rcases mem_answers_or_turnsAwayAt (reasoner.knowledge.facts_subset_add clause)
      (reasoner.knowledge.rules_subset_add clause) rfl (Nat.le_refl _) hrun with hin | h
    · have hin : answer ∈ (told.ask goal).value.answers := hin
      rw [hnil] at hin
      cases hin
    · exact h
  · exact .inl hnil

def listed : Atom → Term := unary "listed" (by decide)

def sponsored : Atom → Term := unary "sponsored" (by decide)

def paid : Atom → Term := unary "paid" (by decide)

def member : Atom → Term := unary "member" (by decide)

def club : Reasoner where
  knowledge :=
    { facts := [listed (.const "nina")]
      rules :=
        [{ head := member (.var "Candidate")
           body := [sponsored (.var "Candidate"), listed (.var "Candidate"),
             paid (.var "Candidate")] },
          { head := member (.var "Candidate"), body := [listed (.var "Candidate")] }] }

/-- Being listed is enough for a member. Once there is a sponsor, the list is looked up for the
first rule, in vain since nothing was paid, and not again for the second. -/
theorem exists_satisfied_lost_of_tell_fact :
    ¬ ∀ (reasoner : Reasoner) (goal fact : Term),
      (reasoner.ask goal).value.satisfied = true → (reasoner.ask goal).value.cutShort = false →
      ((reasoner.tell (.fact fact)).value.ask goal).value.satisfied = true := by
  intro h
  have hlost := h club (member (.const "nina")) (sponsored (.const "nina")) (by decide) (by decide)
  exact absurd hlost (by decide)

theorem turnsAwayAt_of_sponsor :
    let goal := member (.const "nina")
    let told := (club.tell (.fact (sponsored (.const "nina")))).value
    (club.ask goal).value.satisfied = true ∧ (told.ask goal).value.satisfied = false ∧
      ∀ answer ∈ (club.ask goal).value.answers,
        ∃ tree : Derivation club.knowledge club.settings.matching goal answer,
          (∀ node ∈ tree.places,
            EntersAt club.knowledge club.settings ⟨goal, .empty, 0⟩ node.1 node.2) ∧
          ∃ node ∈ tree.places,
            TurnsAwayAt told.knowledge told.settings ⟨goal, .empty, 0⟩ node.1 node.2 := by
  intro goal told
  have hs : (club.ask goal).value.satisfied = true := by decide
  have hlost : (told.ask goal).value.satisfied = false := by decide
  refine ⟨hs, hlost, (satisfied_or_turnsAwayAt_of_tell club _ goal).resolve_left fun h => ?_⟩
  exact Bool.noConfusion (hlost.symm.trans h)

end Reasoner

end Backchain
