import Mathlib.Data.Finset.Dedup
import Backchain.Proofs.Unification

/-!
# The atoms that occur

Unification binds names that occur in its terms to atoms that occur in them, and an update or an
application moves such atoms about. So what is made of terms over a set of atoms is again over this
set. The least such set for a goal and a knowledge base is that of the atoms that occur in them.
-/

namespace Backchain

def KnowledgeBase.atoms (kb : KnowledgeBase) (goal : Term) : Finset Atom :=
  ((goal :: kb.terms).flatMap Term.arguments).toFinset

def Term.Over (atoms : Finset Atom) (t : Term) : Prop := ∀ a ∈ t.arguments, a ∈ atoms

def Substitution.Over (atoms : Finset Atom) (s : Substitution) : Prop :=
  ∀ pair ∈ s.bindings, .var pair.1 ∈ atoms ∧ pair.2 ∈ atoms

/-- Atoms of the set are replaced by such atoms only. Variables outside of it may be bound. -/
def Substitution.MapsInto (atoms : Finset Atom) (s : Substitution) : Prop :=
  ∀ a ∈ atoms, s.applyAtom a ∈ atoms

namespace KnowledgeBase

variable {kb : KnowledgeBase} {goal : Term}

theorem goal_over : goal.Over (kb.atoms goal) := fun _ ha =>
  List.mem_toFinset.mpr (List.mem_flatMap.mpr ⟨goal, List.mem_cons_self, ha⟩)

theorem term_over {t : Term} (ht : t ∈ kb.terms) : t.Over (kb.atoms goal) := fun _ ha =>
  List.mem_toFinset.mpr (List.mem_flatMap.mpr ⟨t, List.mem_cons_of_mem _ ht, ha⟩)

end KnowledgeBase

-- ---------------------------------------------------------------------------
-- Substitutions over a set of atoms
-- ---------------------------------------------------------------------------

namespace Substitution.Over

variable {atoms : Finset Atom} {s t : Substitution}

theorem empty (atoms : Finset Atom) : empty.Over atoms := nofun

theorem bind (h : s.Over atoms) {name : String} {value : Atom} (hn : .var name ∈ atoms)
    (hv : value ∈ atoms) : (s.bind name value).Over atoms := by
  unfold Substitution.bind
  split
  · exact h
  · intro pair hp
    rcases mem_writeKey hp with rfl | hp
    · exact ⟨hn, hv⟩
    · exact h pair hp

theorem bindAll (h : s.Over atoms) {pairs : List (String × Atom)}
    (hp : ∀ pair ∈ pairs, .var pair.1 ∈ atoms ∧ pair.2 ∈ atoms) :
    (s.bindAll pairs).Over atoms := by
  induction pairs generalizing s with
  | nil => exact h
  | cons pair pairs ih =>
    obtain ⟨⟨hn, hv⟩, hpairs⟩ := List.forall_mem_cons.mp hp
    exact ih (h.bind hn hv) hpairs

theorem update (hs : s.Over atoms) (ht : t.Over atoms) : (s.update t).Over atoms := hs.bindAll ht

theorem get?_eq_none (h : s.Over atoms) {x : String} (hx : .var x ∉ atoms) : s.get? x = none := by
  refine List.lookup_eq_none_iff.mpr fun pair hp => ?_
  have hne : x ≠ pair.1 := by
    rintro rfl
    exact hx (h pair hp).1
  simpa using hne

theorem mapsInto (h : s.Over atoms) : s.MapsInto atoms := by
  intro a ha
  cases a with
  | const name => exact ha
  | var name =>
    cases hget : s.get? name with
    | none => simpa [Substitution.applyAtom, hget] using ha
    | some value =>
      obtain ⟨before, after, hsplit, -⟩ := List.lookup_eq_some_iff.mp hget
      have hpair : (name, value) ∈ s.bindings := by simp [hsplit]
      simpa [Substitution.applyAtom, hget] using (h _ hpair).2

end Substitution.Over

namespace Substitution.MapsInto

variable {atoms : Finset Atom} {s t : Substitution}

theorem empty (atoms : Finset Atom) : empty.MapsInto atoms := fun a ha => by simpa using ha

theorem bind (h : s.MapsInto atoms) {name : String} {value : Atom} (hv : value ∈ atoms) :
    (s.bind name value).MapsInto atoms := by
  intro a ha
  cases a with
  | const other => exact ha
  | var x =>
    rw [applyAtom, get?_bind]
    split
    · exact hv
    · exact h _ ha

theorem bindAll (h : s.MapsInto atoms) {pairs : List (String × Atom)}
    (hp : ∀ pair ∈ pairs, pair.2 ∈ atoms) : (s.bindAll pairs).MapsInto atoms := by
  induction pairs generalizing s with
  | nil => exact h
  | cons pair pairs ih =>
    obtain ⟨hv, hpairs⟩ := List.forall_mem_cons.mp hp
    exact ih (h.bind hv) hpairs

theorem update (hs : s.MapsInto atoms) (ht : t.Over atoms) : (s.update t).MapsInto atoms :=
  hs.bindAll fun pair hp => (ht pair hp).2

end Substitution.MapsInto

section
variable {atoms : Finset Atom} {goal candidate : List Atom} {made s : Substitution}
  (h : unifyArguments goal candidate made = .ok s)
include h

theorem unifyArguments_over (hg : ∀ a ∈ goal, a ∈ atoms) (hc : ∀ a ∈ candidate, a ∈ atoms)
    (hm : made.Over atoms) : s.Over atoms := by
  refine unifyArguments_keeps h (fun hgoal hcandidate hstep hm => ?_) hm
  cases hstep with
  | same => exact hm
  | left _ => exact hm.bind (hg _ hgoal) (hc _ hcandidate)
  | right name y => exact hm.bind (hc _ hcandidate) (hg _ hgoal)

theorem unifyArguments_mapsInto (hg : ∀ name, .const name ∈ goal → .const name ∈ atoms)
    (hc : ∀ a ∈ candidate, a ∈ atoms) (hm : made.MapsInto atoms) : s.MapsInto atoms := by
  refine unifyArguments_keeps h (fun hgoal hcandidate hstep hm => ?_) hm
  cases hstep with
  | same => exact hm
  | left _ => exact hm.bind (hc _ hcandidate)
  | right name y => exact hm.bind (hg _ hgoal)

end

theorem unify?_over {atoms : Finset Atom} {matching : Matching} {goal candidate : Term}
    {s : Substitution} (h : unify? matching goal candidate = some s) (hg : goal.Over atoms)
    (hc : candidate.Over atoms) : s.Over atoms :=
  unifyArguments_over (unify?_eq_some_iff.mp h).2.2 hg hc (.empty atoms)

-- ---------------------------------------------------------------------------
-- Instances over a set of atoms
-- ---------------------------------------------------------------------------

def Atom.replace (f : String → Atom) : Atom → Atom
  | .var name => f name
  | .const name => .const name

def Term.replace (f : String → Atom) (t : Term) : Term := t.mapArguments (Atom.replace f)

def Term.InstanceOver (atoms : Finset Atom) (pattern t : Term) : Prop :=
  ∃ f : String → Atom, (∀ x ∈ pattern.varNames, f x ∈ atoms) ∧ t = pattern.replace f

namespace Term.InstanceOver

variable {atoms : Finset Atom} {pattern t : Term}

theorem isOver (h : pattern.InstanceOver atoms t) (hp : pattern.Over atoms) : t.Over atoms := by
  obtain ⟨f, hf, rfl⟩ := h
  intro a ha
  obtain ⟨b, hb, rfl⟩ := List.mem_map.mp ha
  cases b with
  | var name => exact hf name (mem_varNames.mpr hb)
  | const name => exact hp _ hb

theorem symbol_eq (h : pattern.InstanceOver atoms t) : t.symbol = pattern.symbol := by
  obtain ⟨f, -, rfl⟩ := h
  rfl

theorem arity_eq (h : pattern.InstanceOver atoms t) : t.arity = pattern.arity := by
  obtain ⟨f, -, rfl⟩ := h
  exact arity_mapArguments _ _

end Term.InstanceOver

theorem Substitution.MapsInto.apply_instanceOver {atoms : Finset Atom} {s : Substitution}
    (hs : s.MapsInto atoms) {pattern : Term} (hp : pattern.Over atoms) :
    pattern.InstanceOver atoms (s.apply pattern) := by
  refine ⟨fun x => s.applyAtom (.var x), ?_, ?_⟩
  · exact fun x hx => hs _ (hp _ (Term.mem_varNames.mp hx))
  · apply Term.ext
    · rfl
    · exact List.map_congr_left fun a _ => by cases a <;> rfl

def KnowledgeBase.BodyInstance (kb : KnowledgeBase) (atoms : Finset Atom) (goal : Term) : Prop :=
  ∃ rule ∈ kb.rules, ∃ pattern ∈ rule.body, pattern.InstanceOver atoms goal

namespace KnowledgeBase

variable {kb : KnowledgeBase} {atoms : Finset Atom}

theorem BodyInstance.isOver (hkb : ∀ t ∈ kb.terms, t.Over atoms) {goal : Term}
    (h : kb.BodyInstance atoms goal) : goal.Over atoms := by
  obtain ⟨rule, hr, pattern, hp, hi⟩ := h
  exact hi.isOver (hkb pattern (mem_terms_of_body hr hp))

end KnowledgeBase

end Backchain
