import Mathlib.Data.List.Nodup
import Mathlib.Data.List.Perm.Subperm
import Backchain.Proofs.Obtainable

/-!
# Updates

To update a substitution by another one is to form an ordered union of both, in which the second
has the last word on a name that both bind. A proper substitution is known by its names, in their
order, and by what it binds them to. So the laws of updates are laws of these two: the names of the
second that the first lacks are put after the names of the first, and a name is looked up in the
second before it is looked up in the first. The order of the bindings does not matter to the result
but for its own order.
-/

namespace Backchain.Substitution

section Lists

variable {α : Type} [DecidableEq α]

theorem eraseDups_eq_self {names : List α} (h : names.Nodup) : names.eraseDups = names := by
  induction names with
  | nil => rfl
  | cons name names ih =>
    obtain ⟨hname, hnames⟩ := List.nodup_cons.1 h
    have hrest : names.filter (fun other => !other == name) = names :=
      List.filter_eq_self.2 fun other hm => by
        simpa using fun heq : other = name => hname (heq ▸ hm)
    rw [List.eraseDups_cons, hrest, ih hnames]

theorem removeAll_append_removeAll (first second third : List α) :
    (second ++ third.removeAll second).removeAll first =
      second.removeAll first ++ third.removeAll (first ++ second.removeAll first) := by
  simp only [List.removeAll, List.filter_append, List.filter_filter]
  refine congrArg _ (List.filter_congr fun name _ => ?_)
  by_cases hfirst : name ∈ first <;> simp [hfirst]

end Lists

-- ---------------------------------------------------------------------------
-- What a substitution is known by
-- ---------------------------------------------------------------------------

variable {s t u : Substitution}

theorem Proper.bindings_eq (h : s.Proper) :
    s.bindings =
      (s.bindings.map Prod.fst).filterMap fun x => (s.get? x).map fun value => (x, value) := by
  have hself : ∀ pair ∈ s.bindings,
      ((fun x => (s.get? x).map fun value => (x, value)) ∘ Prod.fst) pair = some pair := by
    intro pair hm
    rw [Function.comp_apply, h.mem_bindings_iff.1 hm]
    rfl
  rw [List.filterMap_map, List.filterMap_congr hself, List.filterMap_some]

/-- Names in the same order that are bound to the same values make the same substitution. -/
theorem Proper.ext (hs : s.Proper) (ht : t.Proper)
    (hnames : s.bindings.map Prod.fst = t.bindings.map Prod.fst)
    (hget : ∀ x, s.get? x = t.get? x) : s = t := by
  have hbindings : s.bindings = t.bindings := by
    rw [hs.bindings_eq, ht.bindings_eq, hnames]
    simp only [hget]
  cases s
  cases t
  exact congrArg Substitution.mk hbindings

theorem Proper.nodup_bindings (h : s.Proper) : s.bindings.Nodup :=
  List.Nodup.of_map _ h.nodup

theorem Proper.of_perm (h : s.Proper) (hperm : s.bindings.Perm t.bindings) : t.Proper :=
  ⟨(hperm.map Prod.fst).nodup h.nodup, fun pair hm => h.moves pair (hperm.mem_iff.2 hm)⟩

theorem Proper.perm_iff_get? (hs : s.Proper) (ht : t.Proper) :
    s.bindings.Perm t.bindings ↔ ∀ x, s.get? x = t.get? x := by
  rw [List.perm_ext_iff_of_nodup hs.nodup_bindings ht.nodup_bindings]
  constructor
  · intro h x
    refine Option.ext fun value => ?_
    rw [← hs.mem_bindings_iff, ← ht.mem_bindings_iff, h]
  · rintro h ⟨x, value⟩
    rw [hs.mem_bindings_iff, ht.mem_bindings_iff, h]

theorem Proper.sameBindings_iff_perm (h : s.Proper) :
    SameBindings s t ↔ s.bindings.Perm t.bindings := by
  constructor
  · rintro ⟨hsize, hbound⟩
    have hsubset : s.bindings ⊆ t.bindings := by
      intro pair hm
      obtain ⟨before, after, hsplit, -⟩ := List.lookup_eq_some_iff.1 (hbound pair hm)
      rw [hsplit]
      simp
    exact (h.nodup_bindings.subperm hsubset).perm_of_length_le (Nat.le_of_eq hsize.symm)
  · intro hperm
    refine ⟨hperm.length_eq, fun pair hm => ?_⟩
    exact (h.of_perm hperm).mem_bindings_iff.1 (hperm.mem_iff.1 hm)

-- ---------------------------------------------------------------------------
-- Laws of updates
-- ---------------------------------------------------------------------------

theorem names_update (s : Substitution) (ht : t.Proper) :
    (s.update t).bindings.map Prod.fst =
      s.bindings.map Prod.fst ++ (t.bindings.map Prod.fst).removeAll (s.bindings.map Prod.fst) := by
  rw [update, keys_bindAll ht.moves, List.removeAll, eraseDups_eq_self (ht.nodup.filter _)]

theorem update_empty (s : Substitution) : s.update empty = s := rfl

theorem Proper.empty_update (h : s.Proper) : Substitution.empty.update s = s :=
  h.ofPairs_bindings

theorem Proper.update_self (h : s.Proper) : s.update s = s := by
  refine (h.update s).ext h ?_ fun x => ?_
  · simp [names_update s h, List.removeAll]
  · rw [get?_update s h, Option.or_self]

theorem Proper.update_assoc (hs : s.Proper) (ht : t.Proper) (hu : u.Proper) :
    (s.update t).update u = s.update (t.update u) := by
  refine ((hs.update t).update u).ext (hs.update _) ?_ fun x => ?_
  · rw [names_update _ hu, names_update _ ht, names_update _ (ht.update u), names_update _ hu,
      removeAll_append_removeAll, List.append_assoc]
  · rw [get?_update _ hu, get?_update _ ht, get?_update _ (ht.update u), get?_update _ hu,
      Option.or_assoc]

theorem Proper.update_perm {s' t' : Substitution} (hs : s.Proper) (ht : t.Proper)
    (hfirst : s.bindings.Perm s'.bindings) (hsecond : t.bindings.Perm t'.bindings) :
    (s.update t).bindings.Perm (s'.update t').bindings := by
  have hs' := hs.of_perm hfirst
  have ht' := ht.of_perm hsecond
  rw [(hs.update t).perm_iff_get? (hs'.update t')]
  intro x
  rw [get?_update s ht, get?_update s' ht', (hs.perm_iff_get? hs').1 hfirst x,
    (ht.perm_iff_get? ht').1 hsecond x]

/-- An update binds what either of the two substitutions binds, as the second does where it binds
the name. The names of the first come first, and after them the new ones of the second, each in
their order. The empty substitution is neutral on both sides, and it does not matter which of two
updates in a row is made first, not even to the order of the names. Equality that looks past the
order, which is to hold the same bindings in some order, is kept by updates. -/
theorem update_is_ordered_union (hs : s.Obtainable) (ht : t.Obtainable) (hu : u.Obtainable) :
    ((s.update t).bindings.map Prod.fst =
          s.bindings.map Prod.fst ++
            (t.bindings.map Prod.fst).removeAll (s.bindings.map Prod.fst) ∧
        ∀ x, (s.update t).get? x = (t.get? x).or (s.get? x)) ∧
      (s.update empty = s ∧ empty.update s = s) ∧
      (s.update t).update u = s.update (t.update u) ∧
      (∀ s', SameBindings s s' ↔ s.bindings.Perm s'.bindings) ∧
      ∀ s' t', SameBindings s s' → SameBindings t t' →
        SameBindings (s.update t) (s'.update t') := by
  have hs := hs.proper
  have ht := ht.proper
  refine ⟨⟨names_update s ht, get?_update s ht⟩, ⟨update_empty s, hs.empty_update⟩,
    hs.update_assoc ht hu.proper, fun s' => hs.sameBindings_iff_perm, ?_⟩
  intro s' t' hfirst hsecond
  rw [hs.sameBindings_iff_perm] at hfirst
  rw [ht.sameBindings_iff_perm] at hsecond
  rw [(hs.update t).sameBindings_iff_perm]
  exact hs.update_perm ht hfirst hsecond

theorem update_is_ordered_union_of_orders :
    let s := ofPairs [("Dish", .const "soup"), ("Drink", .const "tea")]
    let t := ofPairs [("Guest", .var "Host"), ("Drink", .const "wine")]
    let u := ofPairs [("Guest", .const "ana"), ("Dish", .var "Guest")]
    let reversed : Substitution := ⟨s.bindings.reverse⟩
    (s.Obtainable ∧ t.Obtainable ∧ u.Obtainable ∧ SameBindings s reversed) ∧
      (s.update t).bindings.map Prod.fst = ["Dish", "Drink", "Guest"] ∧
      (s.update t).get? "Drink" = some (.const "wine") ∧ empty.update s = s ∧
      (s.update t).update u = s.update (t.update u) ∧
      SameBindings (s.update t) (reversed.update t) := by
  intro s t u reversed
  have hs : s.Obtainable := .ofPairs _
  have ht : t.Obtainable := .ofPairs _
  have hu : u.Obtainable := .ofPairs _
  have hreversed : SameBindings s reversed := by decide
  have hself : SameBindings t t := by decide
  obtain ⟨⟨hnames, hget⟩, ⟨-, hempty⟩, hassoc, -, hsame⟩ := update_is_ordered_union hs ht hu
  refine ⟨⟨hs, ht, hu, hreversed⟩, ?_, ?_, hempty, hassoc, hsame _ _ hreversed hself⟩
  · rw [hnames]
    decide
  · rw [hget]
    decide

end Backchain.Substitution
