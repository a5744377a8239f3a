import Backchain.Proofs.Grounding
import Backchain.Unification

/-!
# What an update binds

A substitution that is built by binding has each name once, and none bound to an atom of that very
name. To update by such a substitution is to look a name up there first. Whatever it does not bind
keeps its value in any case.
-/

namespace Backchain

namespace Substitution

/-- Names are bound once, and none to an atom of that name. -/
structure Proper (s : Substitution) : Prop where
  nodup : (s.bindings.map Prod.fst).Nodup
  moves : ∀ pair ∈ s.bindings, pair.1 ≠ pair.2.name

theorem Proper.empty : Proper empty := ⟨.nil, nofun⟩

theorem mem_writeKey {name : String} {value : Atom} {pairs : List (String × Atom)}
    {pair : String × Atom} (h : pair ∈ writeKey name value pairs) :
    pair = (name, value) ∨ pair ∈ pairs := by
  induction pairs with
  | nil => exact .inl (List.mem_singleton.mp h)
  | cons other rest ih =>
    obtain ⟨key, old⟩ := other
    simp only [writeKey] at h
    split at h
    · rcases List.mem_cons.mp h with h | h
      · exact .inl h
      · exact .inr (List.mem_cons_of_mem _ h)
    · rcases List.mem_cons.mp h with rfl | h
      · exact .inr List.mem_cons_self
      · exact (ih h).imp_right (List.mem_cons_of_mem _)

theorem writeKey_of_not_mem {name : String} {pairs : List (String × Atom)}
    (h : name ∉ pairs.map Prod.fst) (value : Atom) :
    writeKey name value pairs = pairs ++ [(name, value)] := by
  induction pairs with
  | nil => rfl
  | cons pair rest ih =>
    obtain ⟨key, old⟩ := pair
    obtain ⟨hkey, hrest⟩ := not_or.mp (mt List.mem_cons.mpr h)
    rw [writeKey, if_neg (Ne.symm hkey), ih hrest, List.cons_append]

theorem Proper.bind {s : Substitution} (h : s.Proper) (name : String) (value : Atom) :
    (s.bind name value).Proper := by
  unfold Substitution.bind
  split
  · exact h
  · rename_i hne
    constructor
    · rw [keys_writeKey]
      split
      · exact h.nodup
      · rename_i hm
        refine List.nodup_append.mpr ⟨h.nodup, by simp, ?_⟩
        rintro key hk other ho rfl
        exact hm (List.mem_singleton.mp ho ▸ hk)
    · intro pair hp
      rcases mem_writeKey hp with rfl | hp
      · exact hne
      · exact h.moves pair hp

theorem Proper.bindAll {s : Substitution} (h : s.Proper) (pairs : List (String × Atom)) :
    (s.bindAll pairs).Proper := by
  induction pairs generalizing s with
  | nil => exact h
  | cons pair pairs ih => exact ih (h.bind pair.1 pair.2)

theorem Proper.update {s : Substitution} (h : s.Proper) (t : Substitution) : (s.update t).Proper :=
  h.bindAll t.bindings

theorem Proper.bindAll_eq {s : Substitution} {pairs : List (String × Atom)}
    (h : Proper ⟨s.bindings ++ pairs⟩) : s.bindAll pairs = ⟨s.bindings ++ pairs⟩ := by
  induction pairs generalizing s with
  | nil => simp [Substitution.bindAll]
  | cons pair rest ih =>
    obtain ⟨key, value⟩ := pair
    have hmoves : key ≠ value.name := h.moves (key, value) (by simp)
    have hnew : key ∉ s.bindings.map Prod.fst := by
      have hnodup := h.nodup
      rw [List.map_append, List.nodup_append] at hnodup
      exact fun hm => hnodup.2.2 key hm key List.mem_cons_self rfl
    have hbind : s.bind key value = ⟨s.bindings ++ [(key, value)]⟩ := by
      rw [Substitution.bind, if_neg hmoves, writeKey_of_not_mem hnew]
    have hstep : s.bindAll ((key, value) :: rest) = (s.bind key value).bindAll rest := rfl
    rw [hstep, hbind, ih (by simpa using h)]
    simp

theorem Proper.ofPairs_bindings {s : Substitution} (h : s.Proper) : ofPairs s.bindings = s :=
  bindAll_eq (s := .empty) h

-- ---------------------------------------------------------------------------
-- Binding many names
-- ---------------------------------------------------------------------------

theorem get?_bindAll_of_lookup_eq_none {pairs : List (String × Atom)} {x : String}
    (h : pairs.lookup x = none) (s : Substitution) : (s.bindAll pairs).get? x = s.get? x := by
  induction pairs generalizing s with
  | nil => rfl
  | cons pair rest ih =>
    obtain ⟨key, value⟩ := pair
    rw [List.lookup_cons] at h
    split at h
    · cases h
    · rename_i hne
      have hx : x ≠ key := by simpa using hne
      exact (ih h (s.bind key value)).trans (by simp [get?_bind, hx])

theorem get?_bindAll {pairs : List (String × Atom)} (hd : (pairs.map Prod.fst).Nodup)
    (hm : ∀ pair ∈ pairs, pair.1 ≠ pair.2.name) (s : Substitution) (x : String) :
    (s.bindAll pairs).get? x = (pairs.lookup x).or (s.get? x) := by
  induction pairs generalizing s with
  | nil => rfl
  | cons pair rest ih =>
    obtain ⟨key, value⟩ := pair
    obtain ⟨hkey, hrest⟩ := List.nodup_cons.mp hd
    have hvalue : key ≠ value.name := hm (key, value) List.mem_cons_self
    have hstep := ih hrest (fun pair hp => hm pair (List.mem_cons_of_mem _ hp)) (s.bind key value)
    refine hstep.trans ?_
    rw [get?_bind, List.lookup_cons]
    by_cases hx : x = key
    · subst hx
      have hnone : rest.lookup x = none := by
        rw [List.lookup_eq_none_iff]
        rintro ⟨other, _⟩ ho
        have hne : x ≠ other := fun h => hkey (List.mem_map.mpr ⟨_, ho, h.symm⟩)
        simpa using hne
      simp [hnone, hvalue]
    · simp [hx, beq_false_of_ne hx]

theorem bindAll_cons (s : Substitution) (pair : String × Atom) (pairs : List (String × Atom)) :
    s.bindAll (pair :: pairs) = (s.bind pair.1 pair.2).bindAll pairs := rfl

theorem bindAll_append (s : Substitution) (pairs more : List (String × Atom)) :
    s.bindAll (pairs ++ more) = (s.bindAll pairs).bindAll more := List.foldl_append

section Moves
variable {pairs : List (String × Atom)} (hm : ∀ pair ∈ pairs, pair.1 ≠ pair.2.name)
include hm

/-- Names that are new come after the others, in the order in which they are first bound. -/
theorem keys_bindAll (s : Substitution) :
    (s.bindAll pairs).bindings.map Prod.fst =
      s.bindings.map Prod.fst ++
        ((pairs.map Prod.fst).removeAll (s.bindings.map Prod.fst)).eraseDups := by
  induction pairs generalizing s with
  | nil => simp [bindAll, List.removeAll]
  | cons pair pairs ih =>
    obtain ⟨hpair, hpairs⟩ := List.forall_mem_cons.mp hm
    rw [bindAll_cons, ih hpairs, bind, if_neg hpair, keys_writeKey, List.map_cons, List.removeAll,
      List.removeAll]
    by_cases hs : pair.1 ∈ s.bindings.map Prod.fst
    · rw [if_pos hs, List.filter_cons_of_neg (by simpa using hs)]
    · rw [if_neg hs, List.filter_cons_of_pos (by simpa using hs), List.eraseDups_cons,
        List.filter_filter, List.append_assoc, List.singleton_append]
      -- To look for the name first and for the others then is to look for all of them.
      congr 3
      refine List.filter_congr fun name _ => ?_
      simp only [List.elem_eq_mem, List.mem_append, List.mem_singleton, Bool.decide_or, Bool.not_or]
      rw [Bool.and_comm]
      rfl

theorem get?_bindAll_last (s : Substitution) (x : String) :
    (s.bindAll pairs).get? x = (pairs.reverse.lookup x).or (s.get? x) := by
  induction pairs generalizing s with
  | nil => rfl
  | cons pair pairs ih =>
    obtain ⟨key, value⟩ := pair
    obtain ⟨hpair, hpairs⟩ := List.forall_mem_cons.mp hm
    rw [bindAll_cons, ih hpairs, get?_bind, List.reverse_cons, List.lookup_append, Option.or_assoc]
    by_cases hx : x = key
    · subst hx
      simp [hpair]
    · simp [hx, List.lookup_cons, beq_false_of_ne hx]

theorem keys_ofPairs :
    (ofPairs pairs).bindings.map Prod.fst = (pairs.map Prod.fst).eraseDups := by
  have hall : (pairs.map Prod.fst).removeAll [] = pairs.map Prod.fst :=
    List.filter_eq_self.mpr fun _ _ => rfl
  have hkeys := keys_bindAll hm empty
  rw [empty, List.map_nil, List.nil_append, hall] at hkeys
  exact hkeys

theorem get?_ofPairs (x : String) : (ofPairs pairs).get? x = pairs.reverse.lookup x :=
  (get?_bindAll_last hm empty x).trans (Option.or_none)

end Moves

theorem Proper.mem_bindings_iff {s : Substitution} (h : s.Proper) {x : String} {value : Atom} :
    (x, value) ∈ s.bindings ↔ s.get? x = some value := by
  rw [get?, List.lookup_eq_some_iff]
  constructor
  · intro hm
    obtain ⟨before, after, hsplit⟩ := List.append_of_mem hm
    refine ⟨before, after, hsplit, fun pair hp => ?_⟩
    have hnodup := h.nodup
    rw [hsplit, List.map_append, List.map_cons, List.nodup_append] at hnodup
    simpa using (hnodup.2.2 pair.1 (List.mem_map_of_mem hp) x List.mem_cons_self).symm
  · rintro ⟨before, after, hsplit, -⟩
    simp [hsplit]

theorem get?_update_of_get?_eq_none {s t : Substitution} {x : String} (h : t.get? x = none) :
    (s.update t).get? x = s.get? x :=
  get?_bindAll_of_lookup_eq_none h s

theorem get?_update (s : Substitution) {t : Substitution} (h : t.Proper) (x : String) :
    (s.update t).get? x = (t.get? x).or (s.get? x) :=
  get?_bindAll h.nodup h.moves s x

/-- The names on the list are bound to their values under the valuation, and no others are. -/
def Binds (s : Substitution) (names : List String) (θ : Valuation) : Prop :=
  ∀ x, s.get? x = if x ∈ names then some (.const (θ x)) else none

theorem Binds.get? {s : Substitution} {names : List String} {θ : Valuation} (h : s.Binds names θ)
    {x : String} (hx : x ∈ names) : s.get? x = some (.const (θ x)) := by
  rw [h x, if_pos hx]

theorem Binds.get?_eq_none {s : Substitution} {names : List String} {θ : Valuation}
    (h : s.Binds names θ) {x : String} (hx : x ∉ names) : s.get? x = none := by
  rw [h x, if_neg hx]

theorem apply_eq_ground {s : Substitution} {θ : Valuation} {t : Term}
    (h : ∀ x ∈ t.varNames, s.get? x = some (.const (θ x))) : s.apply t = t.ground θ := by
  apply Term.ext
  · rfl
  · apply List.map_congr_left
    intro a ha
    cases a with
    | var name => simp [applyAtom, Atom.ground, h name (Term.mem_varNames.mpr ha)]
    | const name => rfl

end Substitution

end Backchain
