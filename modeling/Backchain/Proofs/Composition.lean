import Backchain.Proofs.Updates

/-!
# Updates and composition

In the proof of a body, the answers so far are kept as one substitution. Each answer updates it, and
the next goal is specialised by it and not by one answer after another. Both ways do the same to all
terms exactly if they do the same to what the first substitution binds. There an update has the
value of the second substitution, if it has one, and otherwise leaves the value of the first as it
is, while one after another the second is applied to that value. A substitution that is updated by
itself stays what it is, so this also tells when applying it twice is applying it once.
-/

namespace Backchain

-- ---------------------------------------------------------------------------
-- Functions on atoms
-- ---------------------------------------------------------------------------

namespace Term

theorem mapArguments_mapArguments (f g : Atom → Atom) (t : Term) :
    (t.mapArguments f).mapArguments g = t.mapArguments (g ∘ f) := by
  apply Term.ext
  · rfl
  · simp

theorem forall_mapArguments_eq_iff {f g : Atom → Atom} :
    (∀ t : Term, t.mapArguments f = t.mapArguments g) ↔ ∀ a, f a = g a := by
  constructor
  · intro h a
    have hunary := h ⟨"p", [a], by simp, by simp⟩
    simpa using congrArg arguments hunary
  · intro h t
    rw [funext h]

end Term

namespace Substitution

variable {s t : Substitution}

/-- No value of the first substitution is a variable that the second one binds. -/
def SettledUnder (s t : Substitution) : Prop :=
  ∀ pair ∈ s.bindings, pair.2.isVariable = true → t.get? pair.2.name = none

instance (s t : Substitution) : Decidable (s.SettledUnder t) :=
  inferInstanceAs (Decidable (∀ pair ∈ s.bindings, _ → _))

-- ---------------------------------------------------------------------------
-- Atom by atom
-- ---------------------------------------------------------------------------

theorem applyAtom_update_var (s : Substitution) (ht : t.Proper) (x : String) :
    (s.update t).applyAtom (.var x) = (t.get? x).getD (s.applyAtom (.var x)) := by
  rw [applyAtom, get?_update s ht, Option.getD_or, applyAtom]

/-- What is bound is moved, since no name is bound to an atom of that very name. -/
theorem Proper.applyAtom_eq_self_iff (h : s.Proper) {a : Atom} :
    s.applyAtom a = a ↔ (a.isVariable = true → s.get? a.name = none) := by
  cases a with
  | const name => simp [applyAtom, Atom.isVariable]
  | var x =>
    cases hget : s.get? x with
    | none => simp [applyAtom, Atom.name, hget]
    | some value =>
      have hmoves : x ≠ value.name := h.moves (x, value) (h.mem_bindings_iff.2 hget)
      have hne : value ≠ .var x := by
        rintro rfl
        exact hmoves rfl
      simp [applyAtom, Atom.isVariable, Atom.name, hget, hne]

theorem Proper.settledUnder_iff (ht : t.Proper) :
    s.SettledUnder t ↔ ∀ pair ∈ s.bindings, t.applyAtom pair.2 = pair.2 :=
  forall₂_congr fun _ _ => ht.applyAtom_eq_self_iff.symm

-- ---------------------------------------------------------------------------
-- All terms
-- ---------------------------------------------------------------------------

theorem Proper.apply_update_iff (hs : s.Proper) (ht : t.Proper) :
    (∀ u, (s.update t).apply u = t.apply (s.apply u)) ↔
      ∀ pair ∈ s.bindings, t.applyAtom pair.2 = (t.get? pair.1).getD pair.2 := by
  have hatoms : (∀ u, (s.update t).apply u = t.apply (s.apply u)) ↔
      ∀ a, (s.update t).applyAtom a = t.applyAtom (s.applyAtom a) := by
    simp only [apply, Term.mapArguments_mapArguments]
    exact Term.forall_mapArguments_eq_iff
  rw [hatoms]
  -- Constants and names that the first does not bind are treated alike in any case.
  constructor
  · rintro h ⟨x, value⟩ hm
    have hvalue : s.applyAtom (.var x) = value := by
      rw [applyAtom, hs.mem_bindings_iff.1 hm, Option.getD_some]
    have hx := h (.var x)
    rw [applyAtom_update_var s ht, hvalue] at hx
    exact hx.symm
  · intro h a
    cases a with
    | const name => rfl
    | var x =>
      rw [applyAtom_update_var s ht]
      cases hget : s.get? x with
      | none => simp [applyAtom, hget]
      | some value =>
        have hpair := h (x, value) (hs.mem_bindings_iff.2 hget)
        rw [applyAtom, hget, Option.getD_some, hpair]

theorem Proper.apply_update_iff_settledUnder (hs : s.Proper) (ht : t.Proper)
    (hapart : ∀ pair ∈ s.bindings, t.get? pair.1 = none) :
    (∀ u, (s.update t).apply u = t.apply (s.apply u)) ↔ s.SettledUnder t := by
  rw [hs.apply_update_iff ht, ht.settledUnder_iff]
  refine forall₂_congr fun pair hm => ?_
  rw [hapart pair hm, Option.getD_none]

theorem Proper.apply_idempotent_iff (h : s.Proper) :
    (∀ u, s.apply (s.apply u) = s.apply u) ↔ s.SettledUnder s := by
  -- The substitution updated by itself is itself, and so this is the case of both being the same.
  have hself := h.apply_update_iff h
  rw [h.update_self] at hself
  rw [h.settledUnder_iff]
  refine (forall_congr' fun _ => eq_comm).trans (hself.trans (forall₂_congr fun pair hm => ?_))
  rw [h.mem_bindings_iff.1 hm, Option.getD_some]

/-- Take two substitutions that have no name in common that they bind. To apply the first updated by
the second is to apply the first and then the second, whatever the term, exactly if no value of the
first is a variable that the second binds. And one substitution does no more to any term when it is
applied twice exactly if no value of it is a variable that it binds. -/
theorem update_composes_iff_settledUnder (hs : s.Obtainable) (ht : t.Obtainable) :
    ((∀ pair ∈ s.bindings, t.get? pair.1 = none) →
        ((∀ u, (s.update t).apply u = t.apply (s.apply u)) ↔ s.SettledUnder t)) ∧
      ((∀ u, s.apply (s.apply u) = s.apply u) ↔ s.SettledUnder s) :=
  ⟨hs.proper.apply_update_iff_settledUnder ht.proper, hs.proper.apply_idempotent_iff⟩

theorem update_composes_on_order :
    let s := ofPairs [("Guest", .const "Drink"), ("Dish", .var "Course")]
    let t := ofPairs [("Drink", .const "tea"), ("Table", .var "Dish")]
    let order : Term :=
      ⟨"order", [.var "Guest", .var "Dish", .var "Drink", .const "Dish"], by simp, by simp⟩
    (s.Obtainable ∧ t.Obtainable ∧ (∀ pair ∈ s.bindings, t.get? pair.1 = none) ∧
        s.SettledUnder t ∧ s.SettledUnder s) ∧
      (s.update t).apply order = t.apply (s.apply order) ∧
      s.apply (s.apply order) = s.apply order := by
  intro s t order
  have hs : s.Obtainable := .ofPairs _
  have ht : t.Obtainable := .ofPairs _
  have hapart : ∀ pair ∈ s.bindings, t.get? pair.1 = none := by decide
  have hsecond : s.SettledUnder t := by decide
  have hself : s.SettledUnder s := by decide
  obtain ⟨hcompose, hidempotent⟩ := update_composes_iff_settledUnder hs ht
  exact ⟨⟨hs, ht, hapart, hsecond, hself⟩, (hcompose hapart).2 hsecond order,
    hidempotent.2 hself order⟩

/-- The value of the first is looked up in the second only when one is applied after the other. -/
example :
    let first : Substitution := ⟨[("X", .var "Y")]⟩
    let second : Substitution := ⟨[("Y", .const "c")]⟩
    (first.update second).applyAtom (.var "X") = .var "Y" ∧
      second.applyAtom (first.applyAtom (.var "X")) = .const "c" := by
  decide

end Substitution

end Backchain
