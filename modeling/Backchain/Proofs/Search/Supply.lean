import Mathlib.Algebra.GroupWithZero.Nat
import Mathlib.Algebra.Order.BigOperators.Group.List
import Mathlib.Algebra.Order.Group.Nat
import Mathlib.Data.Fintype.BigOperators
import Backchain.Proofs.Search.Provenance

/-!
# The guard alone bounds a search

A search enters a goal once only, and apart from the query it comes to no goals but those of the
bodies, with atoms that occur for their variables. There are finitely many of these. A goal that is
cut off lies below as many others as the bound allows and one more, all of them entered, so a bound
that is no less than the supply of goals is never exceeded.
-/

namespace Backchain

-- ---------------------------------------------------------------------------
-- The supply of goals
-- ---------------------------------------------------------------------------

def KnowledgeBase.InSupply (kb : KnowledgeBase) (query goal : Term) : Prop :=
  goal = query ∨
    ∃ rule ∈ kb.rules, ∃ pattern ∈ rule.body, pattern.InstanceOver (kb.atoms query) goal

def KnowledgeBase.supply (kb : KnowledgeBase) (query : Term) : Nat :=
  1 + ((kb.rules.flatMap Rule.body).map fun goal => (kb.atoms query).card ^ goal.arity).sum

def Term.spell (t : Term) : String × List Atom := (t.symbol, t.arguments)

theorem Term.spell_injective : Function.Injective Term.spell := by
  intro t u h
  exact Term.ext (congrArg Prod.fst h) (congrArg Prod.snd h)

/-- What the terms over the atoms with the symbol and the arity of the pattern are spelled like. -/
def Term.spellings (atoms : Finset Atom) (pattern : Term) : Finset (String × List Atom) :=
  (Fintype.piFinset fun _ : Fin pattern.arity => atoms).image
    fun arguments => (pattern.symbol, List.ofFn arguments)

theorem Term.card_spellings_le (atoms : Finset Atom) (pattern : Term) :
    (pattern.spellings atoms).card ≤ atoms.card ^ pattern.arity :=
  calc (pattern.spellings atoms).card
      ≤ (Fintype.piFinset fun _ : Fin pattern.arity => atoms).card := Finset.card_image_le
    _ = atoms.card ^ pattern.arity := Fintype.card_piFinset_const atoms pattern.arity

theorem Term.spell_mem_spellings {atoms : Finset Atom} {pattern t : Term} (ht : t.Over atoms)
    (hs : t.symbol = pattern.symbol) (ha : t.arity = pattern.arity) :
    t.spell ∈ pattern.spellings atoms := by
  have hargs : List.ofFn (fun i : Fin pattern.arity => t.arguments.get (i.cast ha.symm)) =
      t.arguments := by
    apply List.ext_getElem
    · exact List.length_ofFn.trans ha.symm
    · intro i _ _
      rw [List.getElem_ofFn]
      rfl
  exact Finset.mem_image.mpr ⟨_, Fintype.mem_piFinset.mpr fun i => ht _ (List.get_mem _ _),
    Prod.ext hs.symm hargs⟩

section
variable {kb : KnowledgeBase} {query : Term}

theorem KnowledgeBase.InSupply.isOver {goal : Term} (h : kb.InSupply query goal) :
    goal.Over (kb.atoms query) := by
  rcases h with rfl | h
  · exact goal_over
  · exact BodyInstance.isOver (fun _ ht => term_over ht) h

theorem KnowledgeBase.length_le_supply {goals : List Term} (hd : goals.Nodup)
    (hg : ∀ goal ∈ goals, kb.InSupply query goal) : goals.length ≤ kb.supply query := by
  let bodies := kb.rules.flatMap Rule.body
  let spelled := bodies.flatMap fun pattern => (pattern.spellings (kb.atoms query)).toList
  have hsub : goals.map Term.spell ⊆ query.spell :: spelled := by
    intro spelling hm
    obtain ⟨goal, hgoal, rfl⟩ := List.mem_map.mp hm
    rcases hg goal hgoal with rfl | ⟨rule, hr, pattern, hp, hi⟩
    · exact List.mem_cons_self
    · have hover : goal.Over (kb.atoms query) := (hg goal hgoal).isOver
      refine List.mem_cons_of_mem _ (List.mem_flatMap.mpr ⟨pattern, ?_, Finset.mem_toList.mpr ?_⟩)
      · exact List.mem_flatMap.mpr ⟨rule, hr, hp⟩
      · exact Term.spell_mem_spellings hover hi.symbol_eq hi.arity_eq
  calc goals.length
      = (goals.map Term.spell).length := (List.length_map _).symm
    _ ≤ (query.spell :: spelled).length :=
      ((hd.map Term.spell_injective).subperm hsub).length_le
    _ = 1 + (bodies.map fun pattern => (pattern.spellings (kb.atoms query)).card).sum := by
      simp [spelled, List.length_flatMap, Nat.add_comm]
    _ ≤ kb.supply query :=
      Nat.add_le_add_left (List.sum_le_sum fun pattern _ => pattern.card_spellings_le _) 1

end

namespace Search

-- ---------------------------------------------------------------------------
-- Goals that were entered
-- ---------------------------------------------------------------------------

theorem supply_closed (kb : KnowledgeBase) (matching : Matching) (query : Term) :
    Closed kb matching (kb.InSupply query) (Substitution.Over (kb.atoms query)) :=
  closed_over matching (fun _ ht => KnowledgeBase.term_over ht) (fun _ hg => hg.isOver)
    fun _ hg => .inr hg

/-- The goals entered are distinct and of the set. There are no fewer of them than the depth, and
once a goal was cut off there are more than the bound. -/
structure Counted (bound : Nat) (G : Term → Prop) (depth : Nat) (s : State) : Prop where
  nodup : s.entered.Nodup
  mem : ∀ goal ∈ s.entered, G goal
  depth_le : depth ≤ s.entered.length
  bound_lt : s.cutoffs ≠ [] → bound < s.entered.length

theorem Counted.empty (bound : Nat) (G : Term → Prop) : Counted bound G 0 .empty :=
  ⟨.nil, nofun, Nat.le_refl 0, fun h => absurd rfl h⟩

theorem counted_invariant (bound : Nat) (G : Term → Prop) :
    Invariant bound G (Counted bound G) where
  enter {goal _ s} hg hgoal h := by
    have hlen : (s.enter goal).entered.length = s.entered.length + 1 := by simp [State.enter]
    constructor
    · refine List.nodup_append.mpr ⟨h.nodup, List.nodup_singleton goal, ?_⟩
      rintro other ho _ hm rfl
      exact hgoal (List.mem_singleton.mp hm ▸ ho)
    · exact List.forall_mem_append.mpr ⟨h.mem, List.forall_mem_singleton.mpr hg⟩
    · exact hlen ▸ Nat.succ_le_succ h.depth_le
    · exact fun hcut => hlen ▸ Nat.lt_succ_of_lt (h.bound_lt hcut)
  leave h := ⟨h.nodup, h.mem, Nat.le_of_succ_le h.depth_le, h.bound_lt⟩
  cutOff _ hdepth h :=
    ⟨h.nodup, h.mem, h.depth_le, fun _ => Nat.lt_of_lt_of_le hdepth h.depth_le⟩

/-- A bound that reaches the supply of goals cuts nothing off. If anything is cut off, more distinct
goals were entered than the bound says, all of the supply. -/
theorem solve_bounded_by_supply (kb : KnowledgeBase) (settings : Settings) (query : Term) :
    let cutoffs := (solve kb settings query).value.cutoffs
    let entered := (prove kb settings query .empty 0).state.entered
    (kb.supply query ≤ settings.depthBound → cutoffs = []) ∧
      (cutoffs ≠ [] → settings.depthBound + 1 ≤ entered.length ∧ entered.Nodup ∧
        ∀ goal ∈ entered, kb.InSupply query goal) := by
  intro cutoffs entered
  have hcounted : Counted settings.depthBound (kb.InSupply query) 0
      (prove kb settings query .empty 0).state :=
    (prove_confined (supply_closed kb settings.matching query) (counted_invariant _ _)
      (.inl rfl) 0 .empty (.empty _ _)).1
  have hfew : entered.length ≤ kb.supply query :=
    KnowledgeBase.length_le_supply hcounted.nodup hcounted.mem
  constructor
  · intro hbound
    by_contra hcut
    have hmany : settings.depthBound < entered.length := hcounted.bound_lt hcut
    omega
  · exact fun hcut => ⟨hcounted.bound_lt hcut, hcounted.nodup, hcounted.mem⟩

def hearsay : KnowledgeBase where
  facts := []
  rules :=
    [{ head := ⟨"heard", [.var "Who"], by decide, by decide⟩
       body := [⟨"told", [.var "Who"], by decide, by decide⟩] },
      { head := ⟨"told", [.var "Who"], by decide, by decide⟩
        body := [⟨"heard", [.var "Who"], by decide, by decide⟩] }]

theorem solve_hearsay_bounded :
    let query : Term := ⟨"heard", [.const "ana"], by decide, by decide⟩
    hearsay.supply query ≤ Settings.depthBound {} ∧
      (solve hearsay {} query).value.cutoffs = [] ∧
      (solve hearsay { maxDepth := 0 } query).value.cutoffs ≠ [] ∧
      1 ≤ (prove hearsay { maxDepth := 0 } query .empty 0).state.entered.length := by
  intro query
  have hsupply : hearsay.supply query ≤ Settings.depthBound {} := by decide
  have hcut : (solve hearsay { maxDepth := 0 } query).value.cutoffs ≠ [] := by decide
  have hmany := (solve_bounded_by_supply hearsay { maxDepth := 0 } query).2 hcut
  exact ⟨hsupply, (solve_bounded_by_supply hearsay {} query).1 hsupply, hcut, hmany.1⟩

end Search

end Backchain
