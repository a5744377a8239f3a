import Backchain.Proofs.Names.Runs

/-!
# Renaming the variables of a rule

A rule is used with the names of its variables as they stand, and what a sub-goal finds for a name
takes the place of what its body had for it. So rules interfere if they have names in common, and
giving one of them names of its own may change what is found.

Whether a ground goal is satisfied changes only if such a name is open, in a goal that is entered,
or if a sub-goal binds it anew while it is needed further right in its body.
-/

namespace Backchain

def Term.rename (ρ : String → String) (t : Term) : Term := t.replace fun x => .var (ρ x)

def Rule.rename (ρ : String → String) (rule : Rule) : Rule :=
  ⟨rule.head.rename ρ, rule.body.map (Term.rename ρ)⟩

/-- The renaming gives distinct variables of the rule distinct names, which are names of variables
and occur in none of the other rules. -/
structure Rule.RenamedApart (ρ : String → String) (rule : Rule) (others : List Rule) : Prop where
  injective : ∀ x ∈ rule.varNames, ∀ y ∈ rule.varNames, ρ x = ρ y → x = y
  conventional : ∀ x ∈ rule.varNames, (Atom.var (ρ x)).Conventional
  apart : ∀ x ∈ rule.varNames, ∀ other ∈ others, ρ x ∉ other.varNames

theorem Term.paired_rename {P : Pairing} {t : Term} (hc : t.Conventional) {ρ : String → String}
    (h : ∀ x ∈ t.varNames, P x (ρ x)) : t.Paired P (t.rename ρ) := by
  refine ⟨rfl, ?_⟩
  rw [Term.rename, Term.replace, arguments_mapArguments, List.forall₂_map_right_iff,
    List.forall₂_same]
  intro a ha
  cases a with
  | var name => exact .var (h name (mem_varNames.mpr ha))
  | const name => exact .const (hc _ ha)

namespace Rule

variable {P : Pairing} {rule : Rule}

theorem paired_rename (hc : ∀ t ∈ rule.terms, t.Conventional) {ρ : String → String}
    (h : ∀ x ∈ rule.varNames, P x (ρ x)) : rule.Paired P (rule.rename ρ) := by
  have hterms : ∀ t ∈ rule.terms, t.Paired P (t.rename ρ) := fun t ht =>
    Term.paired_rename (hc t ht) fun x hx => h x (mem_varNamesOf ht hx)
  refine ⟨hterms rule.head List.mem_cons_self, ?_⟩
  rw [Rule.rename, List.forall₂_map_right_iff, List.forall₂_same]
  exact fun t ht => hterms t (List.mem_cons_of_mem _ ht)

theorem paired_self (hc : ∀ t ∈ rule.terms, t.Conventional) (h : ∀ x ∈ rule.varNames, P x x) :
    rule.Paired P rule := by
  have hterms : ∀ t ∈ rule.terms, t.Paired P t := fun t ht =>
    Term.paired_self (hc t ht) fun x hx => h x (mem_varNamesOf ht hx)
  exact ⟨hterms rule.head List.mem_cons_self,
    List.forall₂_same.mpr fun t ht => hterms t (List.mem_cons_of_mem _ ht)⟩

theorem conventional_of_mem_varNames (hc : ∀ t ∈ rule.terms, t.Conventional) {x : String}
    (hx : x ∈ rule.varNames) : (Atom.var x).Conventional := by
  obtain ⟨t, ht, hx⟩ := List.mem_flatMap.mp hx
  exact hc t ht _ (Term.mem_varNames.mp hx)

end Rule

namespace Search

-- ---------------------------------------------------------------------------
-- How a renaming aligns names
-- ---------------------------------------------------------------------------

/-- A name that only the renamed rule has goes to its new name, and one that only the others have
stays. -/
def RenamesPlain (ρ : String → String) (own used : String → Prop) : Pairing := fun x y =>
  own x ∧ ¬ used x ∧ ρ x = y ∨ used x ∧ ¬ own x ∧ x = y

structure Apart (ρ : String → String) (own used : String → Prop) : Prop where
  injective : ∀ x, own x → ∀ y, own y → ρ x = ρ y → x = y
  apart : ∀ x, own x → ¬ used (ρ x)
  own_conventional : ∀ x, own x → (Atom.var x).Conventional ∧ (Atom.var (ρ x)).Conventional
  used_conventional : ∀ x, used x → (Atom.var x).Conventional

namespace Apart

variable {ρ : String → String} {own used : String → Prop}

theorem biUnique (h : Apart ρ own used) : Relator.BiUnique (RenamesPlain ρ own used) := by
  constructor
  · rintro x y z (⟨hx, -, rfl⟩ | ⟨hx, -, rfl⟩) (⟨hy, -, heq⟩ | ⟨hy, -, heq⟩)
    · exact h.injective x hx y hy heq.symm
    · exact absurd (heq ▸ hy) (h.apart x hx)
    · exact absurd (heq ▸ hx) (h.apart y hy)
    · exact heq.symm
  · rintro x y z (⟨hown, hx, rfl⟩ | ⟨hx, hown, rfl⟩) (⟨hown', -, rfl⟩ | ⟨hx', -, rfl⟩)
    · rfl
    · exact absurd hx' hx
    · exact absurd hown' hown
    · rfl

def alignment (h : Apart ρ own used) : Alignment where
  plain := RenamesPlain ρ own used
  shared := fun x => own x ∧ used x
  shared' := fun y => ∃ x, (own x ∧ used x) ∧ (y = x ∨ y = ρ x)
  faithful :=
    { unique := h.biUnique
      conventional := by
        rintro x y (⟨hx, -, rfl⟩ | ⟨hx, -, rfl⟩)
        · exact h.own_conventional x hx
        · exact ⟨h.used_conventional x hx, h.used_conventional x hx⟩ }
  apart := by
    rintro x y (⟨-, hx, -⟩ | ⟨-, hx, -⟩) ⟨hown, hused⟩
    · exact hx hused
    · exact hx hown
  apart' := by
    rintro x y (⟨hx, hnot, rfl⟩ | ⟨hx, hnot, rfl⟩) ⟨z, ⟨hown, hused⟩, heq | heq⟩
    · exact h.apart x hx (heq ▸ hused)
    · exact hnot (h.injective x hx z hown heq ▸ hused)
    · exact hnot (heq ▸ hown)
    · exact h.apart z hown (heq ▸ hx)

theorem local_renamed (h : Apart ρ own used) : h.alignment.Local fun x y =>
    h.alignment.plain x y ∨ h.alignment.shared x ∧ ρ x = y :=
  Alignment.local_of_choice ρ (fun x hx y hy => h.injective x hx.1 y hy.1)
    (fun x hx => ⟨x, hx, .inr rfl⟩) fun x hx => h.own_conventional x hx.1

theorem local_others (h : Apart ρ own used) : h.alignment.Local fun x y =>
    h.alignment.plain x y ∨ h.alignment.shared x ∧ id x = y :=
  Alignment.local_of_choice id (fun _ _ _ _ heq => heq) (fun x hx => ⟨x, hx, .inl rfl⟩)
    fun x hx => ⟨h.used_conventional x hx.2, h.used_conventional x hx.2⟩

end Apart

-- ---------------------------------------------------------------------------
-- Runs before and after a renaming
-- ---------------------------------------------------------------------------

def Entered (kb : KnowledgeBase) (settings : Settings) (query goal : Term) : Prop :=
  ∃ place, EntersAt kb settings ⟨query, .empty, 0⟩ place goal

/-- The name occurs in one of the rules that is in use: its head unifies with a goal that is
entered. -/
def NameInUse (kb : KnowledgeBase) (settings : Settings) (query : Term) (rules : List Rule)
    (x : String) : Prop :=
  ∃ rule ∈ rules, x ∈ rule.varNames ∧
    ∃ goal, Entered kb settings query goal ∧ (unify? settings.matching goal rule.head).isSome

section
variable {kb : KnowledgeBase} {before after : List Rule} {rule : Rule} {ρ : String → String}

theorem conventional_others (hkb : kb.Conventional) (hrules : kb.rules = before ++ rule :: after)
    {other : Rule} (ho : other ∈ before ++ after) {t : Term} (ht : t ∈ other.terms) :
    t.Conventional := by
  refine hkb.rule ?_ ht
  rw [hrules]
  exact List.mem_append.mpr ((List.mem_append.mp ho).imp_right (List.mem_cons_of_mem _))

variable (hkb : kb.Conventional) (hrules : kb.rules = before ++ rule :: after)
  (hρ : rule.RenamedApart ρ (before ++ after)) (settings : Settings) (query : Term)
include hkb hrules hρ

theorem apart_of_renamedApart : Apart ρ (· ∈ rule.varNames)
    (NameInUse kb settings query (before ++ after)) where
  injective := hρ.injective
  apart := fun x hx ⟨other, ho, hin, _⟩ => hρ.apart x hx other ho hin
  own_conventional := fun x hx =>
    have hr : rule ∈ kb.rules := hrules ▸ List.mem_append_cons_self
    ⟨rule.conventional_of_mem_varNames (fun _ => hkb.rule hr) hx, hρ.conventional x hx⟩
  used_conventional := by
    rintro x ⟨other, ho, hx, -⟩
    exact other.conventional_of_mem_varNames (fun _ => conventional_others hkb hrules ho) hx

theorem aligns_rename (hfacts : ∀ fact ∈ kb.facts, fact.Ground)
    (hclean : ∀ goal, Entered kb settings query goal → ∀ x ∈ goal.varNames,
      ¬ (x ∈ rule.varNames ∧ NameInUse kb settings query (before ++ after) x)) :
    (apart_of_renamedApart hkb hrules hρ settings query).alignment.Aligns kb
      { kb with rules := before ++ rule.rename ρ :: after } settings.matching
      (Entered kb settings query) := by
  have hapart := apart_of_renamedApart hkb hrules hρ settings query
  have hconv : ∀ t ∈ rule.terms, t.Conventional :=
    fun _ => hkb.rule (hrules ▸ List.mem_append_cons_self)
  have hrule : hapart.alignment.Rules settings.matching (Entered kb settings query) rule
      (rule.rename ρ) := by
    refine ⟨⟨fun _ _ => True, Term.paired_rename (hconv _ List.mem_cons_self) fun _ _ => trivial⟩,
      fun _ _ _ => ⟨_, hapart.local_renamed, Rule.paired_rename hconv fun x hx => ?_⟩⟩
    by_cases hused : NameInUse kb settings query (before ++ after) x
    · exact .inr ⟨⟨hx, hused⟩, rfl⟩
    · exact .inl (.inl ⟨hx, hused, rfl⟩)
  have hothers : ∀ other ∈ before ++ after,
      hapart.alignment.Rules settings.matching (Entered kb settings query) other other := by
    intro other ho
    have hconv : ∀ t ∈ other.terms, t.Conventional := fun _ => conventional_others hkb hrules ho
    refine ⟨⟨fun _ _ => True, Term.paired_self (hconv _ List.mem_cons_self) fun _ _ => trivial⟩,
      fun goal hgoal hu => ⟨_, hapart.local_others, Rule.paired_self hconv fun x hx => ?_⟩⟩
    have hused : NameInUse kb settings query (before ++ after) x := ⟨other, ho, hx, goal, hgoal, hu⟩
    by_cases hown : x ∈ rule.varNames
    · exact .inr ⟨⟨hown, hused⟩, rfl⟩
    · exact .inl (.inr ⟨hused, hown, rfl⟩)
  refine ⟨?_, ?_, hclean⟩
  · exact List.forall₂_same.mpr fun fact hf => (hfacts fact hf).paired (hkb.fact hf) _
  · rw [hrules]
    have hbefore := List.forall₂_same.mpr fun other ho => hothers other (List.mem_append_left _ ho)
    have hafter := List.forall₂_same.mpr fun other ho => hothers other (List.mem_append_right _ ho)
    exact List.rel_append hbefore (.cons hrule hafter)

theorem satisfied_rename_of_kept (hfacts : ∀ fact ∈ kb.facts, fact.Ground) (hq : query.Ground)
    (hqc : query.Conventional) :
    let renamed : KnowledgeBase := { kb with rules := before ++ rule.rename ρ :: after }
    let shared := fun x => x ∈ rule.varNames ∧ NameInUse kb settings query (before ++ after) x
    (∀ goal, Entered kb settings query goal → ∀ x ∈ goal.varNames, ¬ shared x) →
    ¬ Rebinds kb settings shared ⟨query, .empty, 0⟩ →
    ¬ Rebinds renamed settings (fun y => ∃ x, shared x ∧ (y = x ∨ y = ρ x)) ⟨query, .empty, 0⟩ →
    (solve renamed settings query).value.satisfied =
      (solve kb settings query).value.satisfied := by
  intro renamed shared hclean hkept hkept'
  have hapart := apart_of_renamedApart hkb hrules hρ settings query
  have hcalls : hapart.alignment.Calls kb renamed settings (Entered kb settings query)
      ⟨query, .empty, 0⟩ ⟨query, .empty, 0⟩ :=
    ⟨hq.paired hqc _, .nil, rfl, fun place goal hgoal => ⟨place, hgoal⟩, hkept, hkept'⟩
  have hrun := hcalls.run (aligns_rename hkb hrules hρ settings query hfacts hclean)
  have hlength : (solve kb settings query).value.answers.length =
      (solve renamed settings query).value.answers.length := hrun.answers.length_eq
  rw [Bool.eq_iff_iff, Findings.satisfied_iff, Findings.satisfied_iff, ← List.length_pos_iff,
    ← List.length_pos_iff, hlength]

/-- A rule that has no names in common with others may be renamed at will. -/
theorem satisfied_rename_of_disjoint (hfacts : ∀ fact ∈ kb.facts, fact.Ground) (hq : query.Ground)
    (hqc : query.Conventional)
    (hdisjoint : ∀ x ∈ rule.varNames, ∀ other ∈ before ++ after, x ∉ other.varNames) :
    (solve { kb with rules := before ++ rule.rename ρ :: after } settings query).value.satisfied =
      (solve kb settings query).value.satisfied := by
  have hnone : ∀ x, ¬ (x ∈ rule.varNames ∧ NameInUse kb settings query (before ++ after) x) :=
    fun x ⟨hx, other, ho, hin, _⟩ => hdisjoint x hx other ho hin
  exact satisfied_rename_of_kept hkb hrules hρ settings query hfacts hq hqc
    (fun _ _ x _ => hnone x) (not_rebinds_of_forall_not hnone _)
    (not_rebinds_of_forall_not (fun _ ⟨x, hx, _⟩ => hnone x hx) _)

/-- Whether a ground goal is satisfied does not depend on the names of the variables of a rule,
unless a name that the rule shares with another one in use is open in a goal that is entered, or is
bound anew while it is needed. -/
theorem satisfied_rename_or_interferes (hfacts : ∀ fact ∈ kb.facts, fact.Ground)
    (hq : query.Ground) (hqc : query.Conventional) :
    let renamed : KnowledgeBase := { kb with rules := before ++ rule.rename ρ :: after }
    let shared := fun x => x ∈ rule.varNames ∧ NameInUse kb settings query (before ++ after) x
    (solve renamed settings query).value.satisfied = (solve kb settings query).value.satisfied ∨
      (∃ goal, Entered kb settings query goal ∧ ∃ x ∈ goal.varNames, shared x) ∨
      Rebinds kb settings shared ⟨query, .empty, 0⟩ ∨
      Rebinds renamed settings (fun y => ∃ x, shared x ∧ (y = x ∨ y = ρ x)) ⟨query, .empty, 0⟩ := by
  intro renamed shared
  by_contra hnot
  simp only [not_or] at hnot
  obtain ⟨hne, hclean, hkept, hkept'⟩ := hnot
  exact hne (satisfied_rename_of_kept hkb hrules hρ settings query hfacts hq hqc
    (fun goal hgoal x hx hs => hclean ⟨goal, hgoal, x, hx, hs⟩) hkept hkept')

end

def flat : Atom → Term := unary "flat" (by decide)

def host : Atom → Term := unary "host" (by decide)

def guest : Atom → Term := unary "guest" (by decide)

def expected : Atom → Term := unary "expected" (by decide)

def party : KnowledgeBase where
  facts := [flat (.const "ana"), expected (.const "luka")]
  rules :=
    [{ head := guest (.var "X"), body := [host (.const "ana"), expected (.var "X")] },
      { head := host (.var "X"), body := [flat (.var "X")] }]

/-- That Ana is a host makes her the guest, of whom it is then asked whether she is expected. With
another name in the rule for hosts, the guest is still Luka. -/
theorem exists_satisfied_changed_of_rename :
    ¬ ∀ (kb : KnowledgeBase) (before after : List Rule) (rule : Rule) (ρ : String → String)
        (settings : Settings) (query : Term),
      (∀ fact ∈ kb.facts, fact.Ground) → (∀ rule ∈ kb.rules, rule.head.Linear) →
      kb.Conventional → kb.rules = before ++ rule :: after →
      rule.RenamedApart ρ (before ++ after) → query.Ground → query.Conventional →
      (solve { kb with rules := before ++ rule.rename ρ :: after } settings query).value.satisfied =
        (solve kb settings query).value.satisfied := by
  intro h
  have hsame := h party [party.rules[0]] [] party.rules[1] (fun _ => "Y") {}
    (guest (.const "luka")) (by decide) (by decide) (by decide) rfl
    ⟨by decide, by decide, by decide⟩ (by decide) (by decide)
  exact absurd hsame (by decide)

theorem interferes_at_party :
    let query := guest (.const "luka")
    let renamed : KnowledgeBase :=
      { party with rules := [party.rules[0], party.rules[1].rename fun _ => "Y"] }
    let shared := fun x =>
      x ∈ party.rules[1].varNames ∧ NameInUse party {} query [party.rules[0]] x
    party.rules[1].RenamedApart (fun _ => "Y") [party.rules[0]] ∧
      (solve renamed {} query).value.satisfied ≠ (solve party {} query).value.satisfied ∧
      ((∃ goal, Entered party {} query goal ∧ ∃ x ∈ goal.varNames, shared x) ∨
        Rebinds party {} shared ⟨query, .empty, 0⟩ ∨
        Rebinds renamed {} (fun y => ∃ x, shared x ∧ (y = x ∨ y = "Y")) ⟨query, .empty, 0⟩) := by
  intro query renamed shared
  have hne : (solve renamed {} query).value.satisfied ≠
      (solve party {} query).value.satisfied := by decide
  have hρ : party.rules[1].RenamedApart (fun _ => "Y") [party.rules[0]] :=
    ⟨by decide, by decide, by decide⟩
  have hrules : party.rules = [party.rules[0]] ++ party.rules[1] :: [] := rfl
  have h := satisfied_rename_or_interferes (by decide) hrules hρ {} query (by decide) (by decide)
    (by decide)
  exact ⟨hρ, hne, h.resolve_left hne⟩

end Search

end Backchain
