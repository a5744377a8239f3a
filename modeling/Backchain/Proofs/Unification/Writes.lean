import Backchain.Proofs.Unification

/-!
# What unification writes

Where two atoms stand opposite each other, unification may write one of them to a name: a variable
of the goal takes what is opposite, and a variable of the candidate takes the constant that is
opposite. Only two different constants make it fail. The bindings are what the writes leave, from
left to right: a name is bound to its last write and is listed at its first.
-/

namespace Backchain

namespace Atom

def Compatible (g c : Atom) : Prop := g = c ∨ g.isVariable = true ∨ c.isVariable = true

instance (g c : Atom) : Decidable (Compatible g c) := inferInstanceAs (Decidable (_ ∨ _))

/-- The name that an atom of the goal and the one opposite write to, with what they write. No name
takes an atom of that very name. -/
def writes? : Atom → Atom → Option (String × Atom)
  | .var x, value => if x = value.name then none else some (x, value)
  | .const name, .var x => if x = name then none else some (x, .const name)
  | .const _, .const _ => none

theorem ne_of_writes? {g c : Atom} {pair : String × Atom} (h : writes? g c = some pair) :
    pair.1 ≠ pair.2.name := by
  unfold writes? at h
  split at h
  · obtain ⟨hne, hpair⟩ := Option.ite_none_left_eq_some.mp h
    exact Option.some.inj hpair ▸ hne
  · obtain ⟨hne, hpair⟩ := Option.ite_none_left_eq_some.mp h
    exact Option.some.inj hpair ▸ hne
  · cases h

end Atom

def writes (goal candidate : List Atom) : List (String × Atom) :=
  (goal.zip candidate).filterMap fun pair => Atom.writes? pair.1 pair.2

theorem writes_cons (g c : Atom) (goal candidate : List Atom) :
    writes (g :: goal) (c :: candidate) = (Atom.writes? g c).toList ++ writes goal candidate := by
  rw [writes, List.zip_cons_cons, List.filterMap_cons]
  cases Atom.writes? g c <;> rfl

theorem ne_of_mem_writes {goal candidate : List Atom} :
    ∀ pair ∈ writes goal candidate, pair.1 ≠ pair.2.name := by
  intro pair hp
  obtain ⟨atoms, -, hwrite⟩ := List.mem_filterMap.mp hp
  exact Atom.ne_of_writes? hwrite

section Step
variable (made : Substitution)

theorem bindAll_writes?_var (x : String) (c : Atom) :
    made.bindAll (Atom.writes? (.var x) c).toList = made.bind x c := by
  by_cases hx : x = c.name <;> simp [Atom.writes?, Substitution.bindAll, Substitution.bind, hx]

theorem bindAll_writes?_const (name x : String) :
    made.bindAll (Atom.writes? (.const name) (.var x)).toList = made.bind x (.const name) := by
  by_cases hx : x = name <;>
    simp [Atom.writes?, Substitution.bindAll, Substitution.bind, Atom.name, hx]

theorem bindAll_writes?_self (a : Atom) : made.bindAll (Atom.writes? a a).toList = made := by
  cases a with
  | var x => simp [bindAll_writes?_var, Substitution.bind, Atom.name]
  | const name => rfl

theorem unifiesAtoms_iff {next : Substitution} {g c : Atom} :
    UnifiesAtoms made g c next ↔
      g.Compatible c ∧ next = made.bindAll (Atom.writes? g c).toList := by
  constructor
  · intro h
    cases h with
    | same => exact ⟨.inl rfl, (bindAll_writes?_self made g).symm⟩
    | @left x _ _ => exact ⟨.inr (.inl rfl), (bindAll_writes?_var made x c).symm⟩
    | right name x => exact ⟨.inr (.inr rfl), (bindAll_writes?_const made name x).symm⟩
  · rintro ⟨hc, rfl⟩
    by_cases heq : g = c
    · subst heq
      exact (bindAll_writes?_self made g).symm ▸ .same g
    · cases g with
      | var x => exact (bindAll_writes?_var made x c).symm ▸ .left heq
      | const name =>
        cases c with
        | var x => exact (bindAll_writes?_const made name x).symm ▸ .right name x
        | const other => simp [Atom.Compatible, Atom.isVariable, heq] at hc

end Step

/-- Unifying is to make all writes, unless two different constants stand opposite each other. -/
theorem unifyArguments_eq_ok_iff {goal candidate : List Atom} {made s : Substitution} :
    unifyArguments goal candidate made = .ok s ↔
      (∀ pair ∈ goal.zip candidate, pair.1.Compatible pair.2) ∧
        s = made.bindAll (writes goal candidate) := by
  induction goal generalizing candidate made with
  | nil => simp [unifyArguments, writes, Substitution.bindAll, eq_comm]
  | cons g goal ih =>
    cases candidate with
    | nil => simp [unifyArguments, writes, Substitution.bindAll, eq_comm]
    | cons c candidate =>
      rw [unifyArguments_cons_eq_ok_iff, writes_cons, List.zip_cons_cons, List.forall_mem_cons]
      simp only [unifiesAtoms_iff, ih, Substitution.bindAll_append]
      constructor
      · rintro ⟨next, ⟨hc, rfl⟩, hrest, rfl⟩
        exact ⟨⟨hc, hrest⟩, rfl⟩
      · rintro ⟨⟨hc, hrest⟩, rfl⟩
        exact ⟨_, ⟨hc, rfl⟩, hrest, rfl⟩

theorem unify?_eq_some_iff_writes {matching : Matching} {goal candidate : Term} {s : Substitution} :
    unify? matching goal candidate = some s ↔
      (goal.arity = candidate.arity ∧ (matching = .sameSymbol → goal.symbol = candidate.symbol) ∧
        ∀ pair ∈ goal.arguments.zip candidate.arguments, pair.1.Compatible pair.2) ∧
      s = .ofPairs (writes goal.arguments candidate.arguments) := by
  rw [unify?_eq_some_iff, unifyArguments_eq_ok_iff, and_assoc, and_assoc]
  rfl

theorem lookup_reverse_eq_some_iff {pairs : List (String × Atom)} {x : String} {value : Atom} :
    pairs.reverse.lookup x = some value ↔
      ∃ before after, pairs = before ++ (x, value) :: after ∧ x ∉ after.map Prod.fst := by
  rw [List.lookup_eq_some_iff]
  constructor
  · rintro ⟨after, before, hsplit, hafter⟩
    refine ⟨before.reverse, after.reverse, ?_, ?_⟩
    · rw [← List.reverse_reverse pairs, hsplit]
      simp
    · simpa using fun value hm => hafter (x, value) hm
  · rintro ⟨before, after, rfl, hafter⟩
    refine ⟨after.reverse, before.reverse, by simp, fun pair hp => ?_⟩
    have hne : x ≠ pair.1 := by
      rintro rfl
      exact hafter (List.mem_map_of_mem (List.mem_reverse.mp hp))
    simpa using hne

theorem mem_bindings_unify?_iff {matching : Matching} {goal candidate : Term} {s : Substitution}
    (h : unify? matching goal candidate = some s) {x : String} {value : Atom} :
    (x, value) ∈ s.bindings ↔
      ∃ before after, writes goal.arguments candidate.arguments = before ++ (x, value) :: after ∧
        x ∉ after.map Prod.fst := by
  have hproper := unify?_proper h
  obtain ⟨-, rfl⟩ := unify?_eq_some_iff_writes.mp h
  rw [hproper.mem_bindings_iff, Substitution.get?_ofPairs ne_of_mem_writes,
    lookup_reverse_eq_some_iff]

/-- Two terms unify when they have as many arguments, equal symbols if these count, and no two
different constants opposite each other. Then exactly the names that are written are bound, in the
order of their first writes, and each to the value of its last write. -/
theorem unify?_binds_last_writes (matching : Matching) (goal candidate : Term) :
    let written := writes goal.arguments candidate.arguments
    ((unify? matching goal candidate).isSome ↔
        goal.arity = candidate.arity ∧ (matching = .sameSymbol → goal.symbol = candidate.symbol) ∧
          ∀ pair ∈ goal.arguments.zip candidate.arguments, pair.1.Compatible pair.2) ∧
      ∀ s, unify? matching goal candidate = some s →
        s.bindings.map Prod.fst = (written.map Prod.fst).eraseDups ∧
          ∀ x value, (x, value) ∈ s.bindings ↔
            ∃ before after, written = before ++ (x, value) :: after ∧ x ∉ after.map Prod.fst := by
  intro written
  refine ⟨by simp [Option.isSome_iff_exists, unify?_eq_some_iff_writes], fun s hs => ?_⟩
  refine ⟨?_, fun x value => mem_bindings_unify?_iff hs⟩
  obtain ⟨-, rfl⟩ := unify?_eq_some_iff_writes.mp hs
  exact Substitution.keys_ofPairs ne_of_mem_writes

/-- `X` is written twice and keeps its place, `Y` is written from both sides, and the constant `X`
is not written to its own name. -/
theorem unify?_orders_binds_last_writes :
    let goal : Term :=
      ⟨"orders", [.var "X", .var "Y", .var "X", .const "a", .var "X"], by decide,
        List.cons_ne_nil _ _⟩
    let candidate : Term :=
      ⟨"brings", [.var "Y", .const "b", .const "c", .var "Y", .const "X"], by decide,
        List.cons_ne_nil _ _⟩
    let written := writes goal.arguments candidate.arguments
    let s : Substitution := ⟨[("X", .const "c"), ("Y", .const "a")]⟩
    unify? .anySymbol goal candidate = some s ∧
      written = [("X", .var "Y"), ("Y", .const "b"), ("X", .const "c"), ("Y", .const "a")] ∧
      s.bindings.map Prod.fst = (written.map Prod.fst).eraseDups ∧
      ∀ x value, (x, value) ∈ s.bindings ↔
        ∃ before after, written = before ++ (x, value) :: after ∧ x ∉ after.map Prod.fst := by
  intro goal candidate written s
  have hs : unify? .anySymbol goal candidate = some s := by decide
  exact ⟨hs, by decide, (unify?_binds_last_writes .anySymbol goal candidate).2 s hs⟩

end Backchain
