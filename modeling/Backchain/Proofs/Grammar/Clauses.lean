import Backchain.Proofs.Grammar.Terms
import Backchain.Reasoner

/-!
# The grammar of clauses

A clause is put together from texts of terms, and a period may end it. The reader looks for the
neck and for the commas between goals outside parentheses, which finds the right ones: a term opens
its parentheses before its first argument and closes them after its last, so a neck, a period or a
percent sign inside an argument is passed over. Therefore reading a clause and reading its terms
one by one come to the same.
-/

namespace Backchain

namespace Clause

-- ---------------------------------------------------------------------------
-- The grammar
-- ---------------------------------------------------------------------------

def Ending (text : List Char) : Prop :=
  text = [] ∨ ∃ blanks, text = '.' :: blanks ∧ ∀ c ∈ blanks, Blank c

/-- The text is a written form of the clause up to its ending. -/
inductive Written : Clause → List Char → Prop where
  | fact {t text} (h : Term.Written t text) : Written (.fact t) text
  | rule {head body before after} (hh : Term.Written head before)
      (hb : Listed Term.Written body after) :
      Written (.rule ⟨head, body⟩) (before ++ ':' :: '-' :: after)

/-- The text is put together from texts that are read as terms: one for a fact, and for a rule one
for the head and one for each goal, with a neck after the head and commas between the goals. -/
inductive JoinedFrom : Clause → String → Prop where
  | fact {t text} (h : Term.read text = .ok t) : JoinedFrom (.fact t) text
  | rule {t head body goals} (hh : Term.read head = .ok t)
      (hb : List.Forall₂ (fun u goal => Term.read goal = .ok u) body goals) (hne : goals ≠ []) :
      JoinedFrom (.rule ⟨t, body⟩) (head ++ ":-" ++ ",".intercalate goals)

/-- Reading the text leads from outside parentheses (`false`) or from inside (`true`) to outside or
to inside, and no comma and no colon stands outside. -/
inductive Passage : Bool → List Char → Bool → Prop where
  | nil {inside} : Passage inside [] inside
  | cons {inside c rest after} (hc : inside = false → c ≠ ',' ∧ c ≠ ':')
      (hr : Passage (insideAfter inside c) rest after) : Passage inside (c :: rest) after

-- ---------------------------------------------------------------------------
-- A term shelters what stands in its parentheses
-- ---------------------------------------------------------------------------

section Passage

variable {inside between after : Bool} {text rest : List Char}

theorem Passage.append (h : Passage inside text between) (hr : Passage between rest after) :
    Passage inside (text ++ rest) after := by
  induction h with
  | nil => exact hr
  | cons hc _ ih => exact .cons hc (ih hr)

theorem passage_outside
    (h : ∀ c ∈ text, c ≠ ',' ∧ c ≠ ':' ∧ c ≠ '(' ∧ c ≠ ')') : Passage false text false := by
  induction text with
  | nil => exact .nil
  | cons c rest ih =>
    obtain ⟨⟨hcomma, hcolon, hopen, hclose⟩, hrest⟩ := List.forall_mem_cons.1 h
    refine .cons (fun _ => ⟨hcomma, hcolon⟩) ?_
    rw [insideAfter, if_neg hopen, if_neg hclose]
    exact ih hrest

theorem passage_inside (h : ')' ∉ text) : Passage true text true := by
  induction text with
  | nil => exact .nil
  | cons c rest ih =>
    obtain ⟨hclose, hrest⟩ := not_or.1 (mt List.mem_cons.2 h)
    refine .cons (fun hf => nomatch hf) ?_
    rw [insideAfter, if_neg (Ne.symm hclose), ite_self]
    exact ih hrest

theorem passage_of_written {t : Term} (h : t.Written text) : Passage false text false := by
  obtain ⟨before, symbol, inner, blanks, rfl, hbefore, hblanks, -, hsymbol, -, hlist⟩ := h
  have hblank : ∀ c, Blank c → c ≠ ',' ∧ c ≠ ':' ∧ c ≠ '(' ∧ c ≠ ')' := by
    rintro c (rfl | rfl | rfl | rfl) <;> simp
  have hchar : ∀ c, SymbolChar c → c ≠ ',' ∧ c ≠ ':' ∧ c ≠ '(' ∧ c ≠ ')' :=
    fun c hc => ⟨hc.ne (by decide), hc.ne (by decide), hc.ne (by decide), hc.ne (by decide)⟩
  have hopen : Passage false ['('] true := .cons (fun _ => by simp) .nil
  have hclose : Passage true [')'] false := .cons (fun hf => nomatch hf) .nil
  exact (passage_outside fun c hm => hblank c (hbefore c hm)).append <|
    (passage_outside fun c hm => hchar c (hsymbol c hm)).append <|
      hopen.append <| (passage_inside hlist.close_not_mem).append <|
        hclose.append (passage_outside fun c hm => hblank c (hblanks c hm))

theorem cutNeck?_append (h : Passage inside text after) (rest : List Char) :
    cutNeck? inside (text ++ rest) =
      (cutNeck? after rest).map fun (head, body) => (text ++ head, body) := by
  induction h with
  | nil => simp
  | @cons inside c text after hc _ ih =>
    have hneck : ¬ (inside = false ∧ c = ':' ∧ (text ++ rest).head? = some '-') :=
      fun hn => (hc hn.1).2 hn.2.1
    rw [List.cons_append, cutNeck?, if_neg hneck, ih, Option.map_map]
    rfl

theorem splitGoals_append (h : Passage inside text after) (rest : List Char) :
    splitGoals inside (text ++ rest) = (splitGoals after rest).modifyHead (text ++ ·) := by
  induction h with
  | @nil inside =>
    rw [List.nil_append]
    cases splitGoals inside rest <;> rfl
  | @cons inside c text after hc _ ih =>
    have hcomma : ¬ (inside = false ∧ c = ',') := fun hn => (hc hn.1).1 hn.2
    rw [List.cons_append, splitGoals, if_neg hcomma, ih]
    cases hs : splitGoals after rest with
    | nil => exact absurd hs (splitGoals_ne_nil _ _)
    | cons goal goals => rfl

end Passage

-- ---------------------------------------------------------------------------
-- Goals
-- ---------------------------------------------------------------------------

theorem mapM_splitGoals_eq_some_iff {body : List Term} {text : List Char} :
    (splitGoals false text).mapM Term.ofChars? = some body ↔ Listed Term.Written body text := by
  simp only [mapM_eq_some_iff, Term.ofChars?_eq_some_iff]
  constructor
  · intro h
    have := Listed.intercalate h (splitGoals_ne_nil _ _)
    rwa [intercalate_splitGoals] at this
  · intro h
    induction h with
    | one h =>
      have := splitGoals_append (passage_of_written h) []
      rw [List.append_nil] at this
      rw [this]
      exact .cons (by simpa using h) .nil
    | more h _ ih =>
      rw [splitGoals_append (passage_of_written h), splitGoals, if_pos ⟨rfl, rfl⟩]
      exact .cons (by simpa using h) ih

-- ---------------------------------------------------------------------------
-- The period
-- ---------------------------------------------------------------------------

theorem exists_ending (text : List Char) :
    ∃ ending, text = dropPeriod text ++ ending ∧ Ending ending := by
  unfold dropPeriod
  split
  · rename_i rest h
    obtain ⟨hrev, hrun, -⟩ := Text.span_eq_iff.1 ⟨rfl, h⟩
    refine ⟨'.' :: (text.reverse.takeWhile Char.isWhitespace).reverse, ?_, .inr ⟨_, rfl, ?_⟩⟩
    · have := congrArg List.reverse hrev
      simpa using this
    · exact fun c hm => isWhitespace_iff.1 (hrun c (List.mem_reverse.1 hm))
  · exact ⟨[], by simp, .inl rfl⟩

theorem dropWhile_reverse_append {text blanks : List Char} {c : Char} (hc : ¬ Blank c)
    (hb : ∀ d ∈ blanks, Blank d) :
    (text ++ c :: blanks).reverse.dropWhile Char.isWhitespace = c :: text.reverse := by
  have hrun : ∀ d ∈ blanks.reverse, d.isWhitespace :=
    fun d hm => isWhitespace_iff.2 (hb d (List.mem_reverse.1 hm))
  have hrev : (text ++ c :: blanks).reverse = blanks.reverse ++ c :: text.reverse := by simp
  exact (Text.span_eq_iff.2 ⟨hrev, hrun, mt isWhitespace_iff.1 hc⟩).2

theorem dropPeriod_append {core blanks ending : List Char} (hb : ∀ c ∈ blanks, Blank c)
    (he : Ending ending) :
    dropPeriod (core ++ ')' :: blanks ++ ending) = core ++ ')' :: blanks := by
  rcases he with rfl | ⟨after, rfl, ha⟩
  · rw [dropPeriod, List.append_nil, dropWhile_reverse_append (by simp [Blank]) hb]
    rfl
  · rw [dropPeriod, dropWhile_reverse_append (by simp [Blank]) ha]
    exact List.reverse_reverse _

theorem closes_of_term_written {t : Term} {text : List Char} (h : t.Written text) :
    ∃ core blanks, text = core ++ ')' :: blanks ∧ ∀ c ∈ blanks, Blank c := by
  obtain ⟨before, symbol, inner, blanks, rfl, -, hblanks, -⟩ := h
  exact ⟨before ++ (symbol ++ '(' :: inner), blanks, by simp, hblanks⟩

theorem closes_of_listed {body : List Term} {text : List Char}
    (h : Listed Term.Written body text) :
    ∃ core blanks, text = core ++ ')' :: blanks ∧ ∀ c ∈ blanks, Blank c := by
  induction h with
  | one h => exact closes_of_term_written h
  | @more _ piece _ _ _ _ ih =>
    obtain ⟨core, blanks, rfl, hblanks⟩ := ih
    exact ⟨piece ++ ',' :: core, blanks, by simp, hblanks⟩

theorem Written.closes {clause : Clause} {text : List Char} (h : clause.Written text) :
    ∃ core blanks, text = core ++ ')' :: blanks ∧ ∀ c ∈ blanks, Blank c := by
  cases h with
  | fact h => exact closes_of_term_written h
  | @rule _ _ before _ _ hb =>
    obtain ⟨core, blanks, rfl, hblanks⟩ := closes_of_listed hb
    exact ⟨before ++ ':' :: '-' :: core, blanks, by simp, hblanks⟩

-- ---------------------------------------------------------------------------
-- Clauses
-- ---------------------------------------------------------------------------

theorem cutNeck?_of_written {t : Term} {text : List Char} (h : t.Written text) :
    cutNeck? false text = none := by
  have := cutNeck?_append (passage_of_written h) []
  simpa [cutNeck?] using this

theorem ofChars?_eq_some_iff {text : List Char} {clause : Clause} :
    ofChars? text = some clause ↔
      ∃ core ending, text = core ++ ending ∧ Ending ending ∧ clause.Written core := by
  constructor
  · intro h
    obtain ⟨ending, htext, hend⟩ := exists_ending text
    refine ⟨dropPeriod text, ending, htext, hend, ?_⟩
    rw [ofChars?] at h
    split at h
    · obtain ⟨t, ht, rfl⟩ := Option.map_eq_some_iff.1 h
      exact .fact (Term.ofChars?_eq_some_iff.1 ht)
    · rename_i before after hcut
      simp only [Option.bind_eq_bind, Option.bind_eq_some_iff] at h
      obtain ⟨head, hh, body, hb, heq⟩ := h
      cases heq
      rw [eq_of_cutNeck? hcut]
      exact .rule (Term.ofChars?_eq_some_iff.1 hh) (mapM_splitGoals_eq_some_iff.1 hb)
  · rintro ⟨core, ending, rfl, hend, hw⟩
    have hdrop : dropPeriod (core ++ ending) = core := by
      obtain ⟨start, blanks, rfl, hblanks⟩ := hw.closes
      exact dropPeriod_append hblanks hend
    rw [ofChars?, hdrop]
    cases hw with
    | fact h => simp [cutNeck?_of_written h, Term.ofChars?_eq_some_iff.2 h]
    | @rule head body before after hh hb =>
      have hcut : cutNeck? false (before ++ ':' :: '-' :: after) = some (before, after) := by
        rw [cutNeck?_append (passage_of_written hh)]
        simp [cutNeck?]
      simp [hcut, Term.ofChars?_eq_some_iff.2 hh, mapM_splitGoals_eq_some_iff.2 hb]

theorem joinedFrom_of_written {clause : Clause} {text : List Char} (h : clause.Written text) :
    clause.JoinedFrom (String.ofList text) := by
  cases h with
  | fact h => exact .fact (Term.read_eq_ok_iff.2 (by simpa [Term.ofChars?_eq_some_iff] using h))
  | @rule head body before after hh hb =>
    obtain ⟨pieces, hne, rfl, hpieces⟩ := listed_iff.1 hb
    have hhead : Term.read (String.ofList before) = .ok head :=
      Term.read_eq_ok_iff.2 (by simpa [Term.ofChars?_eq_some_iff] using hh)
    have hgoals : List.Forall₂ (fun u goal => Term.read goal = .ok u) body
        (pieces.map String.ofList) := by
      simpa [Term.read_eq_ok_iff, Term.ofChars?_eq_some_iff] using hpieces
    have htext : String.ofList (before ++ ':' :: '-' :: [','].intercalate pieces) =
        String.ofList before ++ ":-" ++ ",".intercalate (pieces.map String.ofList) := by
      rw [← String.toList_inj]
      simp
    rw [htext]
    exact .rule hhead hgoals (by simpa using hne)

theorem JoinedFrom.written {clause : Clause} {text : String} (h : clause.JoinedFrom text) :
    clause.Written text.toList := by
  cases h with
  | fact h => exact .fact (Term.ofChars?_eq_some_iff.1 (Term.read_eq_ok_iff.1 h))
  | @rule t head body goals hh hb hne =>
    have hpieces : List.Forall₂ Term.Written body (goals.map String.toList) := by
      simpa [Term.read_eq_ok_iff, Term.ofChars?_eq_some_iff] using hb
    have hlist := Listed.intercalate hpieces (by simpa using hne)
    have := Written.rule (Term.ofChars?_eq_some_iff.1 (Term.read_eq_ok_iff.1 hh)) hlist
    simpa using this

theorem read_eq_ok_iff_written {text : String} {clause : Clause} :
    read text = .ok clause ↔
      ∃ core ending, text.toList = core ++ ending ∧ Ending ending ∧ clause.Written core := by
  rw [read_eq_ok_iff, ofChars?_eq_some_iff]

theorem close_mem_of_read {text : String} {clause : Clause} (h : read text = .ok clause) :
    ')' ∈ text.toList := by
  obtain ⟨core, ending, htext, -, hw⟩ := read_eq_ok_iff_written.1 h
  obtain ⟨start, blanks, rfl, -⟩ := hw.closes
  rw [htext]
  simp

theorem head?_of_term_written {t : Term} {text : List Char} (h : t.Written text) :
    ∃ c, text.head? = some c ∧ (Blank c ∨ SymbolChar c) := by
  obtain ⟨before, symbol, inner, after, rfl, hbefore, -, hne, hsymbol, -⟩ := h
  cases before with
  | cons c before => exact ⟨c, rfl, .inl (hbefore c List.mem_cons_self)⟩
  | nil =>
    cases symbol with
    | nil => exact absurd rfl hne
    | cons c symbol => exact ⟨c, rfl, .inr (hsymbol c List.mem_cons_self)⟩

theorem head?_of_read {text : String} {clause : Clause} (h : read text = .ok clause) :
    ∃ c, text.toList.head? = some c ∧ (Blank c ∨ SymbolChar c) := by
  obtain ⟨core, ending, htext, -, hw⟩ := read_eq_ok_iff_written.1 h
  have hcore : ∃ c, core.head? = some c ∧ (Blank c ∨ SymbolChar c) := by
    cases hw with
    | fact h => exact head?_of_term_written h
    | rule hh _ =>
      obtain ⟨c, hc, hkind⟩ := head?_of_term_written hh
      exact ⟨c, by rw [List.head?_append, hc]; rfl, hkind⟩
  obtain ⟨c, hc, hkind⟩ := hcore
  exact ⟨c, by rw [htext, List.head?_append, hc]; rfl, hkind⟩

end Clause

-- ---------------------------------------------------------------------------
-- Readers that can fail
-- ---------------------------------------------------------------------------

theorem bind_eq_ok_iff {ε α β : Type} {x : Except ε α} {f : α → Except ε β} {b : β} :
    x >>= f = .ok b ↔ ∃ a, x = .ok a ∧ f a = .ok b := by
  cases x <;> simp [bind, Except.bind]

theorem toOption_eq_some_iff {ε α : Type} {x : Except ε α} {a : α} :
    x.toOption = some a ↔ x = .ok a := by
  cases x <;> simp [Except.toOption]

theorem mapM_eq_ok_iff {ε α β : Type} {read : β → Except ε α} {items : List α} {pieces : List β} :
    pieces.mapM read = .ok items ↔
      List.Forall₂ (fun item piece => read piece = .ok item) items pieces := by
  induction pieces generalizing items with
  | nil => cases items <;> simp [pure, Except.pure]
  | cons piece pieces ih =>
    simp only [List.mapM_cons, bind_eq_ok_iff]
    constructor
    · rintro ⟨item, hp, rest, hr, heq⟩
      cases heq
      exact .cons hp (ih.1 hr)
    · rintro (_ | ⟨hp, hs⟩)
      exact ⟨_, hp, _, ih.2 hs, rfl⟩

-- ---------------------------------------------------------------------------
-- Telling by texts
-- ---------------------------------------------------------------------------

theorem Reasoner.tellRule_eq_ok_iff {reasoner : Reasoner} {head : String} {goals : List String}
    {told : Logged Reasoner} :
    reasoner.tellRule head goals = .ok told ↔
      ∃ t body, Term.read head = .ok t ∧
        List.Forall₂ (fun u goal => Term.read goal = .ok u) body goals ∧
        reasoner.tell (.rule ⟨t, body⟩) = told := by
  simp only [tellRule, bind_eq_ok_iff, mapM_eq_ok_iff]
  constructor
  · rintro ⟨t, ht, body, hb, heq⟩
    exact ⟨t, body, ht, hb, Except.ok.inj heq⟩
  · rintro ⟨t, body, ht, hb, rfl⟩
    exact ⟨t, ht, body, hb, rfl⟩

theorem Reasoner.tellText_eq_ok_iff {reasoner : Reasoner} {text : String} {clause : Clause}
    {told : Logged Reasoner} :
    reasoner.tellText text = .ok (clause, told) ↔
      Clause.read text = .ok clause ∧ reasoner.tell clause = told := by
  simp only [tellText, bind_eq_ok_iff]
  constructor
  · rintro ⟨c, hc, heq⟩
    cases heq
    exact ⟨hc, rfl⟩
  · rintro ⟨hc, rfl⟩
    exact ⟨clause, hc, rfl⟩

namespace Clause

/-- A text is read as a clause exactly when it is put together from texts that are read as the
terms of that clause, with nothing after them but an ending. So to tell a rule by the texts of its
terms, of which it has goals, is to tell it by these texts joined. -/
theorem read_accepts_exactly_joined :
    (∀ (text : String) (clause : Clause),
      read text = .ok clause ↔
        ∃ core ending : String,
          text = core ++ ending ∧ Ending ending.toList ∧ clause.JoinedFrom core) ∧
      ∀ (reasoner : Reasoner) (head : String) (goals : List String) (told : Logged Reasoner),
        goals ≠ [] → reasoner.tellRule head goals = .ok told →
          ∃ rule, told.value.rules = reasoner.rules ++ [rule] ∧
            reasoner.tellText (head ++ ":-" ++ ",".intercalate goals) =
              .ok (.rule rule, told) := by
  have hread : ∀ (text : String) (clause : Clause), read text = .ok clause ↔
      ∃ core ending : String,
        text = core ++ ending ∧ Ending ending.toList ∧ clause.JoinedFrom core := by
    intro text clause
    rw [read_eq_ok_iff_written]
    constructor
    · rintro ⟨core, ending, htext, hend, hw⟩
      refine ⟨.ofList core, .ofList ending, ?_, by simpa using hend, joinedFrom_of_written hw⟩
      rw [← String.toList_inj]
      simpa using htext
    · rintro ⟨core, ending, rfl, hend, hjoin⟩
      exact ⟨core.toList, ending.toList, by simp, hend, hjoin.written⟩
  refine ⟨hread, fun reasoner head goals told hne htell => ?_⟩
  obtain ⟨t, body, ht, hb, rfl⟩ := Reasoner.tellRule_eq_ok_iff.1 htell
  have hjoined : read (head ++ ":-" ++ ",".intercalate goals) = .ok (.rule ⟨t, body⟩) :=
    (hread _ _).2 ⟨_, "", by simp, .inl rfl, .rule ht hb hne⟩
  exact ⟨⟨t, body⟩, rfl, Reasoner.tellText_eq_ok_iff.2 ⟨hjoined, rfl⟩⟩

theorem read_mate_joined :
    let goals := ["likes(X, Y)", " likes( Y,X )"]
    ∃ told : Logged Reasoner, goals ≠ [] ∧ ({} : Reasoner).tellRule "mate(X, Y) " goals = .ok told ∧
      ∃ rule, told.value.rules = [rule] ∧
        ({} : Reasoner).tellText "mate(X, Y) :-likes(X, Y), likes( Y,X )" =
          .ok (.rule rule, told) := by
  intro goals
  have htell : ({} : Reasoner).tellRule "mate(X, Y) " goals = .ok _ := rfl
  exact ⟨_, by simp [goals], htell,
    read_accepts_exactly_joined.2 {} "mate(X, Y) " goals _ (by simp [goals]) htell⟩

/-- What would end a clause or part it from its body is part of an argument here. -/
example :
    ofChars? "says(ana,:-.) .".toList =
      some (.fact ⟨"says", [.const "ana", .const ":-."], by simp, by simp⟩) := by
  decide +kernel

end Clause

end Backchain
