import Backchain.Proofs.ActiveDomain

/-!
# Translations

A translation gives symbols, constants and variables new names. As long as it keeps distinct what is
distinct among the names that occur, and keeps variables variables and constants constants, there is
nothing by which unification could tell the new names from the old: to bind, to look up, to update,
to apply and to unify all commute with it.
-/

namespace Backchain

structure Translation where
  symbol : String → String
  const : String → String
  var : String → String
  symbol_ne : ∀ {name}, name ≠ "" → symbol name ≠ ""

namespace Translation

variable (τ : Translation)

def atom : Atom → Atom
  | .var name => .var (τ.var name)
  | .const name => .const (τ.const name)

def term (t : Term) : Term where
  symbol := τ.symbol t.symbol
  arguments := t.arguments.map τ.atom
  symbol_ne := τ.symbol_ne t.symbol_ne
  arguments_ne := by simpa using t.arguments_ne

def rule (rule : Rule) : Rule := ⟨τ.term rule.head, rule.body.map τ.term⟩

def knowledge (kb : KnowledgeBase) : KnowledgeBase where
  facts := kb.facts.map τ.term
  rules := kb.rules.map τ.rule

def binding (pair : String × Atom) : String × Atom := (τ.var pair.1, τ.atom pair.2)

def substitution (s : Substitution) : Substitution := ⟨s.bindings.map τ.binding⟩

def mismatch : Mismatch → Mismatch
  | .arity => .arity
  | .symbol => .symbol
  | .clash left right => .clash (τ.atom left) (τ.atom right)

def unifier : Except Mismatch Substitution → Except Mismatch Substitution
  | .ok s => .ok (τ.substitution s)
  | .error mismatch => .error (τ.mismatch mismatch)

@[simp]
theorem symbol_term (t : Term) : (τ.term t).symbol = τ.symbol t.symbol := rfl

@[simp]
theorem arguments_term (t : Term) : (τ.term t).arguments = t.arguments.map τ.atom := rfl

@[simp]
theorem arity_term (t : Term) : (τ.term t).arity = t.arity := by simp [Term.arity]

/-- Distinct symbols stay distinct, and so do distinct atoms. The atoms follow the convention, and
the new names do so too. -/
structure Faithful (symbols : List String) (atoms : Finset Atom) : Prop where
  symbol : ∀ name ∈ symbols, ∀ other ∈ symbols, τ.symbol name = τ.symbol other → name = other
  atom : ∀ a ∈ atoms, ∀ b ∈ atoms, τ.atom a = τ.atom b → a = b
  conventional : ∀ a ∈ atoms, a.Conventional ∧ (τ.atom a).Conventional

end Translation

structure Term.Within (symbols : List String) (atoms : Finset Atom) (t : Term) : Prop where
  symbol : t.symbol ∈ symbols
  isOver : t.Over atoms

namespace Translation

variable {τ : Translation} {symbols : List String} {atoms : Finset Atom}
  (hτ : τ.Faithful symbols atoms)
include hτ

-- ---------------------------------------------------------------------------
-- What is told apart
-- ---------------------------------------------------------------------------

theorem atom_eq_iff {a b : Atom} (ha : a ∈ atoms) (hb : b ∈ atoms) :
    τ.atom a = τ.atom b ↔ a = b :=
  ⟨hτ.atom a ha b hb, congrArg τ.atom⟩

theorem var_eq_iff {x y : String} (hx : .var x ∈ atoms) (hy : .var y ∈ atoms) :
    τ.var x = τ.var y ↔ x = y := by
  simpa [atom] using atom_eq_iff hτ hx hy

theorem name_eq_iff {x : String} (hx : .var x ∈ atoms) {value : Atom} (hv : value ∈ atoms) :
    τ.var x = (τ.atom value).name ↔ x = value.name := by
  cases value with
  | var y => exact var_eq_iff hτ hx hv
  | const c =>
    obtain ⟨hold, hnew⟩ := hτ.conventional _ hx
    obtain ⟨hold', hnew'⟩ := hτ.conventional _ hv
    exact iff_of_false (hnew.name_ne hnew') (hold.name_ne hold')

theorem eq_of_map_atom_eq {left right : List Atom} (hl : ∀ a ∈ left, a ∈ atoms)
    (hr : ∀ a ∈ right, a ∈ atoms) (h : left.map τ.atom = right.map τ.atom) : left = right := by
  induction left generalizing right with
  | nil => exact (List.map_eq_nil_iff.mp h.symm).symm
  | cons a left ih =>
    cases right with
    | nil => cases h
    | cons b right =>
      obtain ⟨ha, hl⟩ := List.forall_mem_cons.mp hl
      obtain ⟨hb, hr⟩ := List.forall_mem_cons.mp hr
      obtain ⟨hhead, htail⟩ := List.cons.inj h
      rw [hτ.atom a ha b hb hhead, ih hl hr htail]

theorem term_eq_iff {t u : Term} (ht : t.Within symbols atoms) (hu : u.Within symbols atoms) :
    τ.term t = τ.term u ↔ t = u := by
  constructor
  · intro h
    exact Term.ext (hτ.symbol _ ht.symbol _ hu.symbol (congrArg Term.symbol h))
      (eq_of_map_atom_eq hτ ht.isOver hu.isOver (congrArg Term.arguments h))
  · rintro rfl
    rfl

theorem term_mem_map_iff {goals : List Term} (hg : ∀ goal ∈ goals, goal.Within symbols atoms)
    {t : Term} (ht : t.Within symbols atoms) : τ.term t ∈ goals.map τ.term ↔ t ∈ goals := by
  constructor
  · intro h
    obtain ⟨goal, hm, heq⟩ := List.mem_map.mp h
    exact (term_eq_iff hτ (hg goal hm) ht).mp heq ▸ hm
  · exact List.mem_map_of_mem

-- ---------------------------------------------------------------------------
-- Substitutions
-- ---------------------------------------------------------------------------

section
variable {s t : Substitution} (hs : s.Over atoms)
include hs

theorem substitution_bind {x : String} (hx : .var x ∈ atoms) {value : Atom} (hv : value ∈ atoms) :
    τ.substitution (s.bind x value) = (τ.substitution s).bind (τ.var x) (τ.atom value) := by
  have hwrite : ∀ pairs : List (String × Atom), (∀ pair ∈ pairs, .var pair.1 ∈ atoms) →
      (writeKey x value pairs).map τ.binding =
        writeKey (τ.var x) (τ.atom value) (pairs.map τ.binding) := by
    intro pairs hp
    induction pairs with
    | nil => rfl
    | cons pair pairs ih =>
      obtain ⟨hkey, hrest⟩ := List.forall_mem_cons.mp hp
      simp only [writeKey, List.map_cons, binding, var_eq_iff hτ hkey hx]
      split
      · rfl
      · simp only [List.map_cons, binding, ih hrest]
  simp only [Substitution.bind, name_eq_iff hτ hx hv]
  split
  · rfl
  · simp only [substitution, hwrite s.bindings fun pair hp => (hs pair hp).1]

theorem substitution_bindAll {pairs : List (String × Atom)}
    (hp : ∀ pair ∈ pairs, .var pair.1 ∈ atoms ∧ pair.2 ∈ atoms) :
    τ.substitution (s.bindAll pairs) = (τ.substitution s).bindAll (pairs.map τ.binding) := by
  induction pairs generalizing s with
  | nil => rfl
  | cons pair pairs ih =>
    obtain ⟨⟨hname, hvalue⟩, hrest⟩ := List.forall_mem_cons.mp hp
    have hstep := ih (hs.bind hname hvalue) hrest
    rwa [substitution_bind hτ hs hname hvalue] at hstep

theorem substitution_update (ht : t.Over atoms) :
    τ.substitution (s.update t) = (τ.substitution s).update (τ.substitution t) :=
  substitution_bindAll hτ hs ht

theorem get?_substitution {x : String} (hx : .var x ∈ atoms) :
    (τ.substitution s).get? (τ.var x) = (s.get? x).map τ.atom := by
  obtain ⟨pairs⟩ := s
  simp only [Substitution.get?, substitution]
  induction pairs with
  | nil => rfl
  | cons pair pairs ih =>
    obtain ⟨key, value⟩ := pair
    obtain ⟨⟨hkey, -⟩, hrest⟩ := List.forall_mem_cons.mp hs
    have heq : (τ.var x == τ.var key) = (x == key) := by
      rw [Bool.eq_iff_iff, beq_iff_eq, beq_iff_eq, var_eq_iff hτ hx hkey]
    simp only [List.map_cons, binding, List.lookup_cons, heq]
    split
    · rfl
    · exact ih hrest

theorem atom_applyAtom {a : Atom} (ha : a ∈ atoms) :
    τ.atom (s.applyAtom a) = (τ.substitution s).applyAtom (τ.atom a) := by
  cases a with
  | const name => rfl
  | var name =>
    simp only [atom, Substitution.applyAtom, get?_substitution hτ hs ha]
    cases s.get? name <;> rfl

theorem term_apply {goal : Term} (hg : goal.Over atoms) :
    τ.term (s.apply goal) = (τ.substitution s).apply (τ.term goal) := by
  apply Term.ext
  · rfl
  · simp only [arguments_term, Substitution.arguments_apply, List.map_map]
    exact List.map_congr_left fun a ha => atom_applyAtom hτ hs (hg a ha)

end

-- ---------------------------------------------------------------------------
-- Unification
-- ---------------------------------------------------------------------------

theorem unifyArguments_map {goal candidate : List Atom} (hg : ∀ a ∈ goal, a ∈ atoms)
    (hc : ∀ a ∈ candidate, a ∈ atoms) {made : Substitution} (hm : made.Over atoms) :
    unifyArguments (goal.map τ.atom) (candidate.map τ.atom) (τ.substitution made) =
      τ.unifier (unifyArguments goal candidate made) := by
  induction goal generalizing candidate made with
  | nil => rfl
  | cons g goal ih =>
    cases candidate with
    | nil => rfl
    | cons c candidate =>
      obtain ⟨hgm, hgoal⟩ := List.forall_mem_cons.mp hg
      obtain ⟨hcm, hcandidate⟩ := List.forall_mem_cons.mp hc
      simp only [List.map_cons, unifyArguments, atom_eq_iff hτ hgm hcm]
      split
      · exact ih hgoal hcandidate hm
      · cases g with
        | var x =>
          have hnext := ih hgoal hcandidate (hm.bind hgm hcm)
          rwa [substitution_bind hτ hm hgm hcm] at hnext
        | const name =>
          cases c with
          | var y =>
            have hnext := ih hgoal hcandidate (hm.bind hcm hgm)
            rwa [substitution_bind hτ hm hcm hgm] at hnext
          | const other => rfl

theorem unify_term {goal candidate : Term} (hg : goal.Within symbols atoms)
    (hc : candidate.Within symbols atoms) (matching : Matching) :
    unify matching (τ.term goal) (τ.term candidate) = τ.unifier (unify matching goal candidate) := by
  have hsymbol : τ.symbol goal.symbol = τ.symbol candidate.symbol ↔
      goal.symbol = candidate.symbol :=
    ⟨hτ.symbol _ hg.symbol _ hc.symbol, congrArg τ.symbol⟩
  simp only [unify, arity_term, symbol_term, ne_eq, hsymbol]
  split
  · rfl
  · split
    · rfl
    · exact unifyArguments_map hτ hg.isOver hc.isOver (.empty atoms)

end Translation

end Backchain
