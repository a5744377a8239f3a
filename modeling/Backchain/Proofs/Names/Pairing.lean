import Mathlib.Data.List.Forall2
import Backchain.Proofs.ActiveDomain

/-!
# Names that correspond

A pairing says which names of variables in one place correspond to which in another. Terms
correspond if they are the same apart from such names, and substitutions if they give corresponding
names corresponding values. If the pairing is one to one, unification does not tell the two sides
apart: it takes the same steps on both, and its results correspond.
-/

namespace Backchain

abbrev Pairing := String → String → Prop

structure Pairing.Faithful (P : Pairing) : Prop where
  unique : Relator.BiUnique P
  conventional : ∀ {x y : String}, P x y → (Atom.var x).Conventional ∧ (Atom.var y).Conventional

inductive Atom.Paired (P : Pairing) : Atom → Atom → Prop
  | var {x y : String} : P x y → Atom.Paired P (.var x) (.var y)
  | const {c : String} : (Atom.const c).Conventional → Atom.Paired P (.const c) (.const c)

structure Term.Paired (P : Pairing) (t t' : Term) : Prop where
  symbol : t.symbol = t'.symbol
  arguments : List.Forall₂ (Atom.Paired P) t.arguments t'.arguments

structure Rule.Paired (P : Pairing) (rule rule' : Rule) : Prop where
  head : rule.head.Paired P rule'.head
  body : List.Forall₂ (Term.Paired P) rule.body rule'.body

/-- Names that correspond by the first pairing have values that correspond by the second. -/
def Substitution.Paired (P Q : Pairing) (s s' : Substitution) : Prop :=
  ∀ x y, P x y → Option.Rel (Atom.Paired Q) (s.get? x) (s'.get? y)

variable {P Q : Pairing}

theorem exists_of_mem_of_forall₂ {α β : Type} {R : α → β → Prop} {items : List α}
    {items' : List β} (h : List.Forall₂ R items items') {a : α} (ha : a ∈ items) :
    ∃ b ∈ items', R a b := by
  induction h with
  | nil => cases ha
  | cons hab _ ih =>
    rcases List.mem_cons.mp ha with rfl | ha
    · exact ⟨_, List.mem_cons_self, hab⟩
    · obtain ⟨b, hb, hr⟩ := ih ha
      exact ⟨b, List.mem_cons_of_mem _ hb, hr⟩

theorem forall₂_with_mem {α β : Type} {R : α → β → Prop} {items : List α} {items' : List β}
    (h : List.Forall₂ R items items') :
    List.Forall₂ (fun a b => a ∈ items ∧ b ∈ items' ∧ R a b) items items' := by
  obtain ⟨hlength, hzip⟩ := List.forall₂_iff_zip.mp h
  refine List.forall₂_iff_zip.mpr ⟨hlength, fun {a b} hm => ?_⟩
  obtain ⟨ha, hb⟩ := List.of_mem_zip hm
  exact ⟨ha, hb, hzip hm⟩

-- ---------------------------------------------------------------------------
-- Atoms and terms
-- ---------------------------------------------------------------------------

namespace Atom

theorem Paired.mono (h : ∀ x y, P x y → Q x y) {a b : Atom} (hp : a.Paired P b) : a.Paired Q b := by
  cases hp with
  | var hxy => exact .var (h _ _ hxy)
  | const hc => exact .const hc

theorem paired_biUnique (h : Relator.BiUnique P) : Relator.BiUnique (Atom.Paired P) := by
  constructor
  · rintro a b c (hxy | hc) (hzy | _)
    · rw [h.1 hxy hzy]
    · rfl
  · rintro a b c (hxy | hc) (hxz | _)
    · rw [h.2 hxy hxz]
    · rfl

theorem Paired.name_eq_iff (hP : P.Faithful) {x y : String} (hxy : P x y) {a b : Atom}
    (hp : a.Paired P b) : x = a.name ↔ y = b.name := by
  cases hp with
  | var h =>
    constructor
    · rintro rfl
      exact hP.unique.2 hxy h
    · rintro rfl
      exact hP.unique.1 hxy h
  | const hc =>
    obtain ⟨hx, hy⟩ := hP.conventional hxy
    exact ⟨fun h => absurd h (hx.name_ne hc), fun h => absurd h (hy.name_ne hc)⟩

end Atom

namespace Term

variable {t t' : Term}

theorem Paired.mono (h : ∀ x ∈ t.varNames, ∀ y ∈ t'.varNames, P x y → Q x y)
    (hp : t.Paired P t') : t.Paired Q t' := by
  refine ⟨hp.symbol, (forall₂_with_mem hp.arguments).imp ?_⟩
  rintro a b ⟨ha, hb, hab⟩
  cases hab with
  | var hxy => exact .var (h _ (mem_varNames.mpr ha) _ (mem_varNames.mpr hb) hxy)
  | const hc => exact .const hc

theorem Paired.flip (hp : t.Paired P t') : t'.Paired (fun y x => P x y) t := by
  refine ⟨hp.symbol.symm, List.Forall₂.flip (hp.arguments.imp ?_)⟩
  rintro a b (hxy | hc)
  · exact .var hxy
  · exact .const hc

theorem Paired.exists_name (hp : t.Paired P t') {x : String} (hx : x ∈ t.varNames) :
    ∃ y ∈ t'.varNames, P x y := by
  obtain ⟨a, ha, hpa⟩ := exists_of_mem_of_forall₂ hp.arguments (mem_varNames.mp hx)
  cases hpa with
  | var hxy => exact ⟨_, mem_varNames.mpr ha, hxy⟩

theorem paired_biUnique (h : Relator.BiUnique P) : Relator.BiUnique (Term.Paired P) := by
  have hargs := Atom.paired_biUnique h
  constructor
  · intro t u v ht hu
    exact Term.ext (ht.symbol.trans hu.symbol.symm)
      (List.left_unique_forall₂' hargs.1 ht.arguments hu.arguments)
  · intro t u v ht hu
    exact Term.ext (ht.symbol.symm.trans hu.symbol)
      (List.right_unique_forall₂' hargs.2 ht.arguments hu.arguments)

theorem paired_self (hc : t.Conventional) (h : ∀ x ∈ t.varNames, P x x) : t.Paired P t := by
  refine ⟨rfl, List.forall₂_same.mpr fun a ha => ?_⟩
  cases a with
  | var name => exact .var (h name (mem_varNames.mpr ha))
  | const name => exact .const (hc _ ha)

theorem Ground.paired (hg : t.Ground) (hc : t.Conventional) (P : Pairing) : t.Paired P t :=
  paired_self hc fun _ hx => absurd hx (hg.not_mem_varNames _)

end Term

-- ---------------------------------------------------------------------------
-- Substitutions
-- ---------------------------------------------------------------------------

namespace Substitution

variable {s s' t t' : Substitution}

theorem paired_empty (P Q : Pairing) : Paired P Q empty empty := fun _ _ _ => .none

theorem Paired.mono {P' Q' : Pairing} (h : s.Paired P Q s') (hP : ∀ x y, P' x y → P x y)
    (hQ : ∀ x y, Q x y → Q' x y) : s.Paired P' Q' s' := by
  intro x y hxy
  have hrel := h x y (hP x y hxy)
  generalize s.get? x = u, s'.get? y = u' at hrel ⊢
  cases hrel with
  | none => exact .none
  | some hv => exact .some (hv.mono hQ)

theorem Paired.bind (hP : P.Faithful) (h : s.Paired P P s') {x y : String} (hxy : P x y)
    {a b : Atom} (hab : a.Paired P b) : (s.bind x a).Paired P P (s'.bind y b) := by
  intro z w hzw
  have hsame : z = x ↔ w = y := by
    constructor
    · rintro rfl
      exact hP.unique.2 hzw hxy
    · rintro rfl
      exact hP.unique.1 hzw hxy
  simp only [get?_bind, ne_eq, hsame, hab.name_eq_iff hP hxy]
  split
  · exact .some hab
  · exact h z w hzw

theorem Paired.update (h : s.Paired P Q s') (ht : t.Paired P Q t') (hp : t.Proper)
    (hp' : t'.Proper) : (s.update t).Paired P Q (s'.update t') := by
  intro x y hxy
  rw [get?_update s hp, get?_update s' hp']
  have hrel := ht x y hxy
  generalize t.get? x = u, t'.get? y = u' at hrel ⊢
  cases hrel with
  | none => simpa using h x y hxy
  | some hv => exact .some hv

theorem Paired.applyAtom (h : s.Paired P Q s') (hPQ : ∀ x y, P x y → Q x y) {a b : Atom}
    (hab : a.Paired P b) : (s.applyAtom a).Paired Q (s'.applyAtom b) := by
  cases hab with
  | const hc => exact .const hc
  | @var x y hxy =>
    have hrel := h x y hxy
    simp only [Substitution.applyAtom]
    generalize s.get? x = u, s'.get? y = u' at hrel ⊢
    cases hrel with
    | none => exact .var (hPQ x y hxy)
    | some hv => exact hv

theorem Paired.apply (h : s.Paired P Q s') (hPQ : ∀ x y, P x y → Q x y) {u u' : Term}
    (hu : u.Paired P u') : (s.apply u).Paired Q (s'.apply u') := by
  refine ⟨hu.symbol, ?_⟩
  rw [arguments_apply, arguments_apply, List.forall₂_map_left_iff, List.forall₂_map_right_iff]
  exact hu.arguments.imp fun _ _ hab => h.applyAtom hPQ hab

end Substitution

-- ---------------------------------------------------------------------------
-- Unification
-- ---------------------------------------------------------------------------

theorem unifyArguments_paired (hP : P.Faithful) {goal goal' : List Atom}
    (hg : List.Forall₂ (Atom.Paired P) goal goal') {candidate candidate' : List Atom}
    (hc : List.Forall₂ (Atom.Paired P) candidate candidate') {made made' : Substitution}
    (hm : made.Paired P P made') :
    Option.Rel (Substitution.Paired P P) (unifyArguments goal candidate made).toOption
      (unifyArguments goal' candidate' made').toOption := by
  induction hg generalizing candidate candidate' made made' with
  | nil => exact .some hm
  | @cons g g' goal goal' hgg _ ih =>
    cases hc with
    | nil => exact .some hm
    | @cons c c' candidate candidate' hcc hrest =>
      have heq : g = c ↔ g' = c' := by
        have hunique := Atom.paired_biUnique hP.unique
        constructor
        · rintro rfl
          exact hunique.2 hgg hcc
        · rintro rfl
          exact hunique.1 hgg hcc
      simp only [unifyArguments, heq]
      split
      · exact ih hrest hm
      · cases hgg with
        | var hxy => exact ih hrest (hm.bind hP hxy hcc)
        | const hconst =>
          cases hcc with
          | var hxy => exact ih hrest (hm.bind hP hxy (.const hconst))
          | const _ => exact .none

theorem unify?_paired (hP : P.Faithful) {goal goal' candidate candidate' : Term}
    (hg : goal.Paired P goal') (hc : candidate.Paired P candidate') (matching : Matching) :
    Option.Rel (Substitution.Paired P P) (unify? matching goal candidate)
      (unify? matching goal' candidate') := by
  have harity : goal.arity = goal'.arity := hg.arguments.length_eq
  have harity' : candidate.arity = candidate'.arity := hc.arguments.length_eq
  simp only [unify?, unify, harity, harity', hg.symbol, hc.symbol]
  split
  · exact .none
  · split
    · exact .none
    · exact unifyArguments_paired hP hg.arguments hc.arguments (Substitution.paired_empty P P)

/-- Whether terms unify does not depend on the names of their variables. -/
theorem isSome_unifyArguments {goal goal' : List Atom}
    (hg : List.Forall₂ (Atom.Paired P) goal goal') {candidate candidate' : List Atom}
    (hc : List.Forall₂ (Atom.Paired Q) candidate candidate') (made made' : Substitution) :
    (unifyArguments goal candidate made).toOption.isSome =
      (unifyArguments goal' candidate' made').toOption.isSome := by
  induction hg generalizing candidate candidate' made made' with
  | nil => rfl
  | cons hgg _ ih =>
    cases hc with
    | nil => rfl
    | cons hcc hrest =>
      cases hgg with
      | var _ =>
        have hstep : ∀ {x c goal candidate}, ∀ made : Substitution, ∃ next,
            unifyArguments (.var x :: goal) (c :: candidate) made =
              unifyArguments goal candidate next := by
          intro x c goal candidate made
          simp only [unifyArguments]
          split
          · exact ⟨_, rfl⟩
          · exact ⟨_, rfl⟩
        obtain ⟨next, hnext⟩ := hstep made
        obtain ⟨next', hnext'⟩ := hstep made'
        rw [hnext, hnext', ih hrest next next']
      | const _ =>
        cases hcc with
        | var _ => exact ih hrest _ _
        | const _ =>
          simp only [unifyArguments]
          split
          · exact ih hrest _ _
          · rfl

theorem isSome_unify? {goal goal' candidate candidate' : Term} (hg : goal.Paired P goal')
    (hc : candidate.Paired Q candidate') (matching : Matching) :
    (unify? matching goal candidate).isSome = (unify? matching goal' candidate').isSome := by
  have harity : goal.arity = goal'.arity := hg.arguments.length_eq
  have harity' : candidate.arity = candidate'.arity := hc.arguments.length_eq
  simp only [unify?, unify, harity, harity', hg.symbol, hc.symbol]
  split
  · rfl
  · split
    · rfl
    · exact isSome_unifyArguments hg.arguments hc.arguments _ _

end Backchain
