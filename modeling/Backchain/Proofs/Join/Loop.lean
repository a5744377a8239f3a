import Backchain.Proofs.Join.Survivors
import Backchain.Search.BackwardChaining

/-!
# The rows that a search keeps

A search for the goals of a body keeps a list of rows, which it lengthens goal by goal. Where the
goals are looked up among ground facts, the rows are those of the valuations that survive the guard,
and each such valuation has a row that comes after those of earlier survivors only.
-/

namespace Backchain.Search

variable {α : Type}

-- ---------------------------------------------------------------------------
-- Goals that only facts answer
-- ---------------------------------------------------------------------------

theorem forEach_idle {search : α → State → Outcome} {items : List α}
    (h : ∀ item ∈ items, ∀ s, (search item s).answers = [] ∧ (search item s).state = s)
    (state : State) :
    (forEach search items state).answers = [] ∧ (forEach search items state).state = state := by
  induction items with
  | nil => exact ⟨rfl, rfl⟩
  | cons item items ih =>
    obtain ⟨ha, hs⟩ := h item List.mem_cons_self state
    obtain ⟨ha', hs'⟩ := ih fun other ho => h other (List.mem_cons_of_mem _ ho)
    constructor
    · simp [forEach, ha, hs, ha']
    · simp [forEach, hs, hs']

/-- A goal that is new is entered and has the facts that it unifies with for answers. -/
def LooksUp (facts : List Term) (sub : Strategy) (goal : Term) : Prop :=
  ∀ s, (sub goal s).answers =
      (if goal ∈ s.entered then [] else facts.filterMap (unify? .sameSymbol goal)) ∧
    (sub goal s).state = if goal ∈ s.entered then s else s.enter goal

theorem tryRule_of_symbol_ne {goal : Term} {rule : Rule} (h : goal.symbol ≠ rule.head.symbol)
    (sub : Strategy) (state : State) :
    (tryRule sub .sameSymbol goal rule state).answers = [] ∧
      (tryRule sub .sameSymbol goal rule state).state = state := by
  unfold tryRule
  cases hu : unify .sameSymbol goal rule.head with
  | error mismatch => exact ⟨rfl, rfl⟩
  | ok seed =>
    exact absurd ((unify?_eq_some_iff.mp (unify_eq_ok_iff.mp hu)).2.1 rfl) h

theorem prove_looksUp {kb : KnowledgeBase} {settings : Settings} {depth : Nat} {goal : Term}
    (hm : settings.matching = .sameSymbol) (hd : depth ≤ settings.depthBound)
    (h : ∀ rule ∈ kb.rules, goal.symbol ≠ rule.head.symbol) :
    LooksUp kb.facts (fun goal state => prove kb settings goal state depth) goal := by
  intro s
  simp only [prove_of_le_bound hd, hm]
  split
  · exact ⟨rfl, rfl⟩
  · let sub : Strategy := fun goal state => prove kb settings goal state (depth + 1)
    obtain ⟨ha, hs⟩ := forEach_idle (fun rule hr => tryRule_of_symbol_ne (h rule hr) sub)
      (s.enter goal)
    simp only [tryAll, answers_tryFacts, state_tryFacts]
    exact ⟨by rw [ha, List.append_nil], hs⟩

section
variable {facts : List Term} {sub : Strategy} {goal : Term} {rows : List Substitution} {s : State}

theorem mem_entered_forEach (h : ∀ row ∈ rows, LooksUp facts sub (row.apply goal))
    {pattern : Term} :
    pattern ∈ (forEach (extend sub goal) rows s).state.entered ↔
      pattern ∈ s.entered ∨ ∃ row ∈ rows, row.apply goal = pattern := by
  induction rows generalizing s with
  | nil => simp [forEach]
  | cons row rows ih =>
    have hfirst : pattern ∈ (extend sub goal row s).state.entered ↔
        pattern ∈ s.entered ∨ row.apply goal = pattern := by
      have hstate : (extend sub goal row s).state = _ := (h row List.mem_cons_self s).2
      rw [hstate]
      split
      · rename_i hin
        exact ⟨.inl, fun hp => hp.elim id fun heq => heq ▸ hin⟩
      · simp [State.enter, eq_comm]
    have hrest := ih (s := (extend sub goal row s).state)
      fun other ho => h other (List.mem_cons_of_mem _ ho)
    rw [forEach]
    simp only [hrest, hfirst, List.mem_cons, exists_eq_or_imp, or_assoc]

/-- An answer of the loop updates a row by a fact, the pattern of the row being new on its turn. -/
theorem exists_lookup_of_mem_answers (h : ∀ row ∈ rows, LooksUp facts sub (row.apply goal))
    {answer : Substitution} (ha : answer ∈ (forEach (extend sub goal) rows s).answers) :
    ∃ earlier row later, rows = earlier ++ row :: later ∧
      row.apply goal ∉ (forEach (extend sub goal) earlier s).state.entered ∧
      ∃ fact ∈ facts, ∃ found, unify? .sameSymbol (row.apply goal) fact = some found ∧
        answer = row.update found := by
  obtain ⟨earlier, row, later, rfl, hturn⟩ := exists_turn_of_mem_answers ha
  obtain ⟨found, hfound, rfl⟩ := List.mem_map.mp hturn
  rw [(h row (by simp) _).1] at hfound
  split at hfound
  · cases hfound
  · rename_i hnew
    obtain ⟨fact, hm, hu⟩ := List.mem_filterMap.mp hfound
    exact ⟨earlier, row, later, rfl, hnew, fact, hm, found, hu, rfl⟩

theorem answers_forEach_of_new {earlier : List Substitution} {row : Substitution}
    (h : LooksUp facts sub (row.apply goal))
    (hnew : row.apply goal ∉ (forEach (extend sub goal) earlier s).state.entered)
    (later : List Substitution) :
    ∃ rest, (forEach (extend sub goal) (earlier ++ row :: later) s).answers =
      (forEach (extend sub goal) earlier s).answers ++
        ((facts.filterMap (unify? .sameSymbol (row.apply goal))).map row.update ++ rest) := by
  have hlook := (h (forEach (extend sub goal) earlier s).state).1
  rw [if_neg hnew] at hlook
  simp only [forEach_append, forEach, extend, hlook]
  exact ⟨_, rfl⟩

end

-- ---------------------------------------------------------------------------
-- The rows that a loop keeps
-- ---------------------------------------------------------------------------

/-- The row is that of a survivor that is met before the valuation. -/
def RowBefore (facts : List Term) (names : List String) (done : List Term) (θ : Valuation)
    (row : Substitution) : Prop :=
  ∃ η, Survives facts done η ∧ Row facts names done η row ∧
    places facts done η < places facts done θ

/-- Every row is that of a survivor, every survivor has a row with none but those of earlier
survivors before it, and the patterns entered are those sought. Goals with the symbol of the head
are left out of account. -/
structure Tracks (facts : List Term) (names : List String) (symbol : String) (done : List Term)
    (rows : List Substitution) (state : State) : Prop where
  survivor : ∀ row ∈ rows, ∃ θ, Survives facts done θ ∧ Row facts names done θ row
  first : ∀ θ, Survives facts done θ → ∃ earlier row later, rows = earlier ++ row :: later ∧
    Row facts names done θ row ∧ ∀ other ∈ earlier, RowBefore facts names done θ other
  entered : ∀ pattern : Term, pattern.symbol ≠ symbol →
    (pattern ∈ state.entered ↔ Sought facts done pattern)

structure JoinGoal (names : List String) (symbol : String) (goal : Term) : Prop where
  linear : goal.Linear
  conventional : goal.Conventional
  foreign : goal.symbol ≠ symbol
  known : ∀ x ∈ goal.varNames, x ∈ names

namespace Tracks

variable {facts done : List Term} {names : List String} {symbol : String} {sub : Strategy}
  {goal : Term} {rows : List Substitution} {s : State}

theorem nil {seed : Substitution} {top : Term} (ht : top.symbol = symbol)
    (hseed : ∀ x ∈ names, seed.get? x = none) (facts : List Term) :
    Tracks facts names symbol [] [seed] (State.empty.enter top) := by
  have hrow : ∀ θ, Row facts names [] θ seed := fun θ => ⟨nofun, hseed⟩
  constructor
  · rintro row hr
    rw [List.mem_singleton.mp hr]
    exact ⟨fun x => x, survives_nil facts _, hrow _⟩
  · intro θ _
    exact ⟨[], seed, [], rfl, hrow θ, nofun⟩
  · intro pattern hp
    constructor
    · intro hm
      rw [List.mem_singleton.mp hm] at hp
      exact absurd ht hp
    · exact fun hs => absurd hs (not_sought_nil facts pattern)

variable (h : Tracks facts names symbol done rows s) (hd : ∀ x ∈ varNamesOf done, x ∈ names)
include h hd

theorem exists_earlier {earlier later : List Substitution} {row : Substitution} {θ η : Valuation}
    (hrows : rows = earlier ++ row :: later) (hθ : Row facts names done θ row)
    (hη : Survives facts done η) (hlt : places facts done η < places facts done θ) :
    ∃ other ∈ earlier, Row facts names done η other := by
  have hplaces : ∀ ζ, Row facts names done ζ row → places facts done ζ = places facts done θ :=
    fun ζ hζ => places_congr (hζ.agree hθ hd)
  obtain ⟨before, other, after, hsplit, hother, hfirst⟩ := h.first η hη
  rcases List.append_eq_append_iff.mp (hrows.symm.trans hsplit) with ⟨more, hb, hr⟩ | ⟨more, hb, hr⟩
  · cases more with
    | nil =>
      rw [← (List.cons.inj hr).1] at hother
      exact absurd (hplaces η hother ▸ hlt) (List.lt_irrefl _)
    | cons next more =>
      have hin : row ∈ before := by simp [hb, (List.cons.inj hr).1]
      obtain ⟨ζ, -, hζ, hζlt⟩ := hfirst row hin
      exact absurd (List.lt_trans (hplaces ζ hζ ▸ hζlt) hlt) (List.lt_irrefl _)
  · cases more with
    | nil =>
      rw [(List.cons.inj hr).1] at hother
      exact absurd (hplaces η hother ▸ hlt) (List.lt_irrefl _)
    | cons next more =>
      refine ⟨other, ?_, hother⟩
      simp [hb, (List.cons.inj hr).1]

variable (hc : ∀ fact ∈ facts, fact.Conventional) (hf : ∀ fact ∈ facts, fact.Ground)
  (hg : JoinGoal names symbol goal)
  (hsub : ∀ other : Term, other.symbol ≠ symbol → LooksUp facts sub other)
include hc hf hg hsub

theorem exists_survivor {earlier later : List Substitution} {row found : Substitution}
    {θ : Valuation} {fact : Term} (hrows : rows = earlier ++ row :: later)
    (hθ : Survives facts done θ) (hrow : Row facts names done θ row)
    (hnew : row.apply goal ∉ (forEach (extend sub goal) earlier s).state.entered)
    (hm : fact ∈ facts) (hu : unify? .sameSymbol (row.apply goal) fact = some found) :
    ∃ η, (∀ x ∈ varNamesOf done, η x = θ x) ∧ goal.ground η = fact ∧
      Survives facts (done ++ [goal]) η ∧
      Row facts names (done ++ [goal]) η (row.update found) := by
  rw [hrow.apply_eq hg.known] at hu hnew
  rw [mem_entered_forEach fun other _ => hsub (other.apply goal) hg.foreign, not_or] at hnew
  obtain ⟨hsought, hearlier⟩ := hnew
  obtain ⟨η, hη, hfact, hlong⟩ := hrow.update hc hg.conventional hg.linear hm (hf fact hm) hu
  have hpattern := Term.fill_congr hη goal
  refine ⟨η, hη, hfact, survives_concat.mpr ⟨?_, hfact ▸ hm, ?_, ?_⟩, hlong⟩
  · exact hθ.congr fun x hx => (hη x hx).symm
  · rw [hpattern]
    exact fun hs => hsought ((h.entered (goal.fill θ _) hg.foreign).mpr hs)
  · intro ζ hζ hp hlt
    obtain ⟨other, ho, hother⟩ := h.exists_earlier hd hrows hrow hζ (places_congr hη ▸ hlt)
    exact hearlier ⟨other, ho, (hother.apply_eq hg.known).trans (hp.trans hpattern)⟩

/-- What lengthens an earlier row is met before what lengthens the row. -/
theorem rowBefore_of_row {earlier later : List Substitution} {row answer : Substitution}
    {θ : Valuation} (hrows : rows = earlier ++ row :: later)
    (hless : ∀ other ∈ earlier, RowBefore facts names done θ other)
    (ha : answer ∈ (forEach (extend sub goal) earlier s).answers) :
    RowBefore facts names (done ++ [goal]) θ answer := by
  obtain ⟨before, other, after, hsplit, hnew, fact, hm, found, hu, rfl⟩ :=
    exists_lookup_of_mem_answers (fun other _ => hsub (other.apply goal) hg.foreign) ha
  obtain ⟨ζ, hζ, hother, hlt⟩ := hless other (by simp [hsplit])
  have hrows' : rows = before ++ other :: (after ++ row :: later) := by
    rw [hrows, hsplit, List.append_assoc, List.cons_append]
  obtain ⟨η, hη, -, hsurvives, hlong⟩ :=
    h.exists_survivor hd hc hf hg hsub hrows' hζ hother hnew hm hu
  refine ⟨η, hsurvives, hlong, ?_⟩
  rw [places_concat, places_concat, places_congr hη]
  exact append_lt_append (by simp [length_places]) hlt _ _

theorem rowBefore_of_fact {earlier later : List Substitution} {row found : Substitution}
    {θ : Valuation} {before after : List Term} (hrows : rows = earlier ++ row :: later)
    (hθ : Survives facts done θ) (hrow : Row facts names done θ row)
    (hnew : row.apply goal ∉ (forEach (extend sub goal) earlier s).state.entered)
    (hfacts : facts = before ++ goal.ground θ :: after) (hbefore : goal.ground θ ∉ before)
    (hfound : found ∈ before.filterMap (unify? .sameSymbol (row.apply goal))) :
    RowBefore facts names (done ++ [goal]) θ (row.update found) := by
  obtain ⟨fact, hm, hu⟩ := List.mem_filterMap.mp hfound
  obtain ⟨η, hη, hfact, hsurvives, hlong⟩ := h.exists_survivor hd hc hf hg hsub hrows hθ hrow
    hnew (hfacts ▸ List.mem_append_left _ hm) hu
  refine ⟨η, hsurvives, hlong, ?_⟩
  rw [places_concat, places_concat, places_congr hη, hfact]
  exact append_singleton_lt _ (idxOf_lt_idxOf hfacts hm hbefore)

theorem first_step {θ : Valuation} (hθ : Survives facts (done ++ [goal]) θ) :
    ∃ earlier row later, (forEach (extend sub goal) rows s).answers = earlier ++ row :: later ∧
      Row facts names (done ++ [goal]) θ row ∧
      ∀ other ∈ earlier, RowBefore facts names (done ++ [goal]) θ other := by
  obtain ⟨hs, hm, hsought, hfirst⟩ := survives_concat.mp hθ
  obtain ⟨earlier, row, later, hrows, hrow, hless⟩ := h.first θ hs
  have hlook : ∀ other : Substitution, LooksUp facts sub (other.apply goal) :=
    fun other => hsub (other.apply goal) hg.foreign
  have happly := hrow.apply_eq hg.known
  have hnew : row.apply goal ∉ (forEach (extend sub goal) earlier s).state.entered := by
    rw [mem_entered_forEach fun other _ => hlook other, happly]
    rintro (hin | ⟨other, ho, heq⟩)
    · exact hsought ((h.entered (goal.fill θ _) hg.foreign).mp hin)
    · obtain ⟨η, hη, hother, hlt⟩ := hless other ho
      exact hfirst η hη ((hother.apply_eq hg.known).symm.trans heq) hlt
  obtain ⟨found, hu, hlong⟩ := hrow.exists_update hc hg.conventional hm
  obtain ⟨before, after, hfacts, hbefore⟩ := List.eq_append_cons_of_mem hm
  obtain ⟨rest, hanswers⟩ := answers_forEach_of_new (hlook row) hnew later
  let lookup := unify? .sameSymbol (row.apply goal)
  refine ⟨(forEach (extend sub goal) earlier s).answers ++ (before.filterMap lookup).map row.update,
    row.update found, (after.filterMap lookup).map row.update ++ rest, ?_, hlong, ?_⟩
  · rw [hrows, hanswers, hfacts]
    simp [lookup, happly, hu]
  · intro other ho
    rcases List.mem_append.mp ho with ho | ho
    · exact h.rowBefore_of_row hd hc hf hg hsub hrows hless ho
    · obtain ⟨other, hother, rfl⟩ := List.mem_map.mp ho
      exact h.rowBefore_of_fact hd hc hf hg hsub hrows hs hrow hnew hfacts hbefore hother

theorem step : Tracks facts names symbol (done ++ [goal])
    (forEach (extend sub goal) rows s).answers (forEach (extend sub goal) rows s).state := by
  have hlook : ∀ row ∈ rows, LooksUp facts sub (row.apply goal) :=
    fun row _ => hsub (row.apply goal) hg.foreign
  constructor
  · intro answer ha
    obtain ⟨earlier, row, later, hrows, hnew, fact, hm, found, hu, rfl⟩ :=
      exists_lookup_of_mem_answers hlook ha
    obtain ⟨θ, hθ, hrow⟩ := h.survivor row (by simp [hrows])
    obtain ⟨η, -, -, hη, hlong⟩ := h.exists_survivor hd hc hf hg hsub hrows hθ hrow hnew hm hu
    exact ⟨η, hη, hlong⟩
  · exact fun θ hθ => h.first_step hd hc hf hg hsub hθ
  · intro pattern hp
    rw [mem_entered_forEach hlook, sought_concat, h.entered pattern hp]
    refine or_congr_right ⟨?_, ?_⟩
    · rintro ⟨row, hr, rfl⟩
      obtain ⟨θ, hθ, hrow⟩ := h.survivor row hr
      exact ⟨θ, hθ, (hrow.apply_eq hg.known).symm⟩
    · rintro ⟨θ, hθ, rfl⟩
      obtain ⟨earlier, row, later, hrows, hrow, -⟩ := h.first θ hθ
      exact ⟨row, by simp [hrows], hrow.apply_eq hg.known⟩

end Tracks

theorem proveBody_tracks {facts : List Term} {names : List String} {symbol : String}
    {sub : Strategy} (hc : ∀ fact ∈ facts, fact.Conventional) (hf : ∀ fact ∈ facts, fact.Ground)
    (hsub : ∀ goal : Term, goal.symbol ≠ symbol → LooksUp facts sub goal) {done goals : List Term}
    (hg : ∀ goal ∈ done ++ goals, JoinGoal names symbol goal) {rows : List Substitution} {s : State}
    (h : Tracks facts names symbol done rows s) :
    Tracks facts names symbol (done ++ goals) (proveBody sub goals rows s).answers
      (proveBody sub goals rows s).state := by
  induction goals generalizing done rows s with
  | nil =>
    rw [List.append_nil]
    exact h
  | cons goal goals ih =>
    have hd : ∀ x ∈ varNamesOf done, x ∈ names := by
      intro x hx
      obtain ⟨other, ho, hx⟩ := List.mem_flatMap.mp hx
      exact (hg other (List.mem_append_left _ ho)).known x hx
    rw [List.append_cons] at hg ⊢
    exact ih hg (h.step hd hc hf (hg goal (by simp)) hsub)

end Backchain.Search
