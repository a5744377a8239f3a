import Backchain.Proofs.Search.Invariant
import Backchain.Proofs.Unification

/-!
# Substitutions that can be obtained

A substitution is made from the empty one by binding names, by collecting pairs and by updating, or
it comes from unifying two terms or out of a search. All of these write their bindings by `bind`,
and no search leads out of the proper substitutions. So those that can be obtained are the ones that
bind no name twice and none to an atom of that very name, and each such one can be collected from
its own bindings.
-/

namespace Backchain

-- ---------------------------------------------------------------------------
-- Searches
-- ---------------------------------------------------------------------------

namespace Search

theorem proper_closed (kb : KnowledgeBase) (matching : Matching) :
    Closed kb matching (fun _ => True) Substitution.Proper where
  fact _ _ hu := unify?_proper hu
  head _ _ hu := unify?_proper hu
  update hs _ := hs.update _
  body _ _ _ := trivial

theorem proper_of_mem_answers {kb : KnowledgeBase} {settings : Settings} {goal : Term}
    {state : State} {depth : Nat} {answer : Substitution}
    (h : answer ∈ (prove kb settings goal state depth).answers) : answer.Proper :=
  (proper_closed kb settings.matching).of_mem_answers trivial h

end Search

-- ---------------------------------------------------------------------------
-- All operations
-- ---------------------------------------------------------------------------

namespace Substitution

/-- The substitution comes out of the operations, in any order. A search may be for any goal, over
any knowledge base, at any depth and from any state. -/
inductive Obtainable : Substitution → Prop where
  | empty : Obtainable .empty
  | bind {s} (h : Obtainable s) (name : String) (value : Atom) : Obtainable (s.bind name value)
  | ofPairs (pairs : List (String × Atom)) : Obtainable (.ofPairs pairs)
  | update {s t} (hs : Obtainable s) (ht : Obtainable t) : Obtainable (s.update t)
  | unify {matching goal candidate s} (h : Backchain.unify matching goal candidate = .ok s) :
      Obtainable s
  | answer {kb settings goal state depth s}
      (h : s ∈ (Search.prove kb settings goal state depth).answers) : Obtainable s

theorem Obtainable.proper {s : Substitution} (h : s.Obtainable) : s.Proper := by
  induction h with
  | empty => exact .empty
  | bind _ name value ih => exact ih.bind name value
  | ofPairs pairs => exact Proper.empty.bindAll pairs
  | update _ _ ih _ => exact ih.update _
  | unify h => exact unify?_proper (unify_eq_ok_iff.mp h)
  | answer h => exact Search.proper_of_mem_answers h

theorem Proper.obtainable {s : Substitution} (h : s.Proper) : s.Obtainable :=
  h.ofPairs_bindings ▸ .ofPairs s.bindings

/-- Whatever the operations, every name is bound once, and none to an atom of that very name.
Nothing else can be said of the substitutions that they make. -/
theorem obtainable_iff_bound_once {s : Substitution} :
    s.Obtainable ↔
      (s.bindings.map Prod.fst).Nodup ∧ ∀ pair ∈ s.bindings, pair.1 ≠ pair.2.name := by
  constructor
  · intro h
    exact ⟨h.proper.nodup, h.proper.moves⟩
  · rintro ⟨hnodup, hmoves⟩
    exact Proper.obtainable ⟨hnodup, hmoves⟩

end Substitution

end Backchain
