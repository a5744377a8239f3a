import Backchain.Proofs.Reasoner.History
import Backchain.Proofs.Text.Encoding
import Backchain.Shell.Dialogue
import Backchain.Shell.Loading

/-!
# What a line leaves behind

Files and dialogues are taken line by line. Whatever stands on a line, it leaves one thing behind at
most: the clause that it holds. No clause is mistaken for a command or for a comment, since it opens
a parenthesis and starts with a symbol. So the reasoner after some lines is the one before them that
was told the clauses of these lines, and a line gives the same clause in a file and in a dialogue.
-/

namespace Backchain.Shell

-- ---------------------------------------------------------------------------
-- The clause on a line
-- ---------------------------------------------------------------------------

def clauseOn? (line : String) : Option Clause := (Clause.read (Text.trim line)).toOption

def acceptedOn? (line : List UInt8) : Option Clause := (Text.decode? line).bind clauseOn?

theorem clauseOn?_eq_some_iff {line : String} {clause : Clause} :
    clauseOn? line = some clause ↔ Clause.read (Text.trim line) = .ok clause :=
  toOption_eq_some_iff

section Read

variable {text : String} {clause : Clause} (h : Clause.read text = .ok clause)
include h

theorem ne_of_read {word : String} (hword : ')' ∉ word.toList) : text ≠ word := by
  rintro rfl
  exact hword (Clause.close_mem_of_read h)

theorem head?_ne_of_read {c : Char} (hblank : ¬ Blank c) (hsymbol : ¬ Term.isSymbolChar c) :
    text.toList.head? ≠ some c := by
  intro hc
  obtain ⟨d, hd, hkind⟩ := Clause.head?_of_read h
  obtain rfl : c = d := Option.some.inj (hc.symm.trans hd)
  exact hkind.elim hblank fun hs => hs.ne hsymbol rfl

theorem isPassedOver_of_read : isPassedOver text = false := by
  have hempty : text ≠ "" := ne_of_read h (by simp)
  have hcomment := head?_ne_of_read h (c := '%') (by simp [Blank]) (by decide)
  simp [isPassedOver, hempty, hcomment]

end Read

/-- The words that are commands open no parenthesis, and no clause starts as a query does. -/
theorem ofLine_of_read {line : String} {clause : Clause}
    (h : Clause.read (Text.trim line) = .ok clause) :
    Command.ofLine line = .clause (Text.trim line) := by
  have hword : ∀ word : String, ')' ∉ word.toList → Text.trim line ≠ word :=
    fun word => ne_of_read h
  have hquery := head?_ne_of_read h (c := '?') (by simp [Blank]) (by decide)
  unfold Command.ofLine
  split
  · exact absurd ‹_› (hword "" (by simp))
  · exact absurd ‹_› (hword "quit" (by simp))
  · exact absurd ‹_› (hword "exit" (by simp))
  · exact absurd ‹_› (hword "help" (by simp))
  · exact absurd ‹_› (hword "facts" (by simp))
  · exact absurd ‹_› (hword "rules" (by simp))
  · split
    · rename_i hgoal
      rw [hgoal] at hquery
      exact absurd rfl hquery
    · rfl

-- ---------------------------------------------------------------------------
-- One line of a dialogue
-- ---------------------------------------------------------------------------

namespace Command

def clause? : Command → Option Clause
  | .clause text => (Clause.read text).toOption
  | _ => none

theorem clause?_clause (text : String) :
    (Command.clause text).clause? = (Clause.read text).toOption := rfl

theorem eq_trim_of_ofLine {line text : String} (h : ofLine line = .clause text) :
    text = Text.trim line := by
  unfold ofLine at h
  split at h
  · cases h
  · cases h
  · cases h
  · cases h
  · cases h
  · cases h
  · split at h
    · cases h
    · exact (Command.clause.inj h).symm

theorem clause?_ofLine (line : String) : (ofLine line).clause? = clauseOn? line := by
  refine Option.ext fun clause => ?_
  rw [clauseOn?_eq_some_iff]
  constructor
  · intro h
    cases hcommand : ofLine line with
    | clause text =>
      rw [hcommand, clause?_clause, toOption_eq_some_iff, eq_trim_of_ofLine hcommand] at h
      exact h
    | _ =>
      rw [hcommand] at h
      cases h
  · intro h
    rw [ofLine_of_read h, clause?_clause, toOption_eq_some_iff]
    exact h

end Command

theorem obey_reasoner (json : Bool) (reasoner : Reasoner) (command : Command) :
    (obey json reasoner command).2 = reasoner.tellAll command.clause?.toList := by
  cases command with
  | clause text =>
    cases h : Clause.read text <;>
      (simp only [obey, Reasoner.tellText, Command.clause?, h]; rfl)
  | _ => rfl

def endingOn? (line : List UInt8) : Option Ending :=
  match Text.decode? line with
  | none => some .notUtf8
  | some line => if Command.ofLine line = .quit then some .quit else none

section Turn

variable (json : Bool) (reasoner : Reasoner) (line : List UInt8)

theorem takeTurn_ending : (takeTurn json reasoner line).ending = endingOn? line := by
  unfold takeTurn endingOn?
  cases Text.decode? line <;> rfl

theorem takeTurn_reasoner :
    (takeTurn json reasoner line).reasoner = reasoner.tellAll (acceptedOn? line).toList := by
  unfold takeTurn acceptedOn?
  cases Text.decode? line with
  | none => rfl
  | some text =>
    rw [Option.bind_some, ← Command.clause?_ofLine]
    exact obey_reasoner json reasoner (Command.ofLine text)

end Turn

-- ---------------------------------------------------------------------------
-- The lines of a dialogue
-- ---------------------------------------------------------------------------

section Converse

variable {json : Bool} {reasoner : Reasoner} {line : List UInt8} {lines : List (List UInt8)}

theorem tellAll_filterMap_cons (reasoner : Reasoner) (line : List UInt8)
    (lines : List (List UInt8)) :
    (reasoner.tellAll (acceptedOn? line).toList).tellAll (lines.filterMap acceptedOn?) =
      reasoner.tellAll ((line :: lines).filterMap acceptedOn?) := by
  rw [← Reasoner.tellAll_append]
  cases h : acceptedOn? line <;> simp [h]

theorem converse_cons_of_ending {ending : Ending} (h : endingOn? line = some ending) :
    converse json reasoner (line :: lines) =
      ⟨[(takeTurn json reasoner line).reply], reasoner.tellAll (acceptedOn? line).toList,
        ending⟩ := by
  simp only [converse, takeTurn_ending, h, takeTurn_reasoner]

theorem converse_cons_of_no_ending (h : endingOn? line = none) :
    converse json reasoner (line :: lines) =
      let later := converse json (reasoner.tellAll (acceptedOn? line).toList) lines
      { later with replies := (takeTurn json reasoner line).reply :: later.replies } := by
  simp only [converse, takeTurn_ending, h, takeTurn_reasoner]

theorem converse_ending (json : Bool) (reasoner : Reasoner) (lines : List (List UInt8)) :
    (converse json reasoner lines).ending = (lines.findSome? endingOn?).getD .endOfInput := by
  induction lines generalizing reasoner with
  | nil => rfl
  | cons line lines ih =>
    cases h : endingOn? line with
    | some ending =>
      rw [converse_cons_of_ending h, List.findSome?_cons_of_isSome (by simp [h]), h]
      rfl
    | none =>
      rw [converse_cons_of_no_ending h, List.findSome?_cons_of_isNone (by simp [h])]
      exact ih _

/-- Lines that do not end the dialogue are answered one by one, and leave their clauses to the lines
after them. -/
theorem converse_append (h : ∀ line ∈ lines, endingOn? line = none) (json : Bool)
    (reasoner : Reasoner) (further : List (List UInt8)) :
    converse json reasoner (lines ++ further) =
      let later := converse json (reasoner.tellAll (lines.filterMap acceptedOn?)) further
      { later with replies := (converse json reasoner lines).replies ++ later.replies } := by
  induction lines generalizing reasoner with
  | nil => rfl
  | cons line lines ih =>
    obtain ⟨hline, hlines⟩ := List.forall_mem_cons.1 h
    rw [List.cons_append, converse_cons_of_no_ending hline, converse_cons_of_no_ending hline,
      ih hlines, tellAll_filterMap_cons]
    rfl

theorem converse_reasoner (h : ∀ line ∈ lines, endingOn? line = none) (json : Bool)
    (reasoner : Reasoner) :
    (converse json reasoner lines).reasoner = reasoner.tellAll (lines.filterMap acceptedOn?) := by
  have happend := converse_append h json reasoner []
  rw [List.append_nil] at happend
  rw [happend]
  rfl

theorem length_replies (h : ∀ line ∈ lines, endingOn? line = none) (json : Bool)
    (reasoner : Reasoner) : (converse json reasoner lines).replies.length = lines.length := by
  induction lines generalizing reasoner with
  | nil => rfl
  | cons line lines ih =>
    obtain ⟨hline, hlines⟩ := List.forall_mem_cons.1 h
    rw [converse_cons_of_no_ending hline, List.length_cons, List.length_cons, ih hlines]

end Converse

-- ---------------------------------------------------------------------------
-- The lines of a file
-- ---------------------------------------------------------------------------

def fileLines (text : String) : List String := (Text.textLines text.toList).map String.ofList

def Loadable (line : String) : Prop := isPassedOver (Text.trim line) ∨ (clauseOn? line).isSome

theorem map_trim_fileLines (text : String) :
    (fileLines text).map Text.trim =
      ((Text.lines '\n' text.toList).map String.ofList).map Text.trim := by
  rw [fileLines, List.map_map, List.map_map, ← List.forall₂_eq_eq_eq, List.forall₂_map_left_iff,
    List.forall₂_map_right_iff]
  refine (Text.forall₂_textLines text.toList).imp fun line whole h => ?_
  rcases h with rfl | rfl
  · rfl
  · simp only [Function.comp_apply, Text.trim, String.toList_ofList]
    rw [Text.strip_concat (by decide)]

section File

variable {lines others : List String}

theorem loadLines_congr (h : lines.map Text.trim = others.map Text.trim) (path : String)
    (reasoner : Reasoner) (number : Nat) :
    loadLines path reasoner number lines = loadLines path reasoner number others := by
  induction lines generalizing others reasoner number with
  | nil =>
    obtain rfl := List.map_eq_nil_iff.1 h.symm
    rfl
  | cons line lines ih =>
    obtain ⟨other, others, rfl, hother, hothers⟩ := List.map_eq_cons_iff.1 h.symm
    simp only [loadLines, hother, ih hothers.symm]

theorem filterMap_clauseOn?_congr (h : lines.map Text.trim = others.map Text.trim) :
    lines.filterMap clauseOn? = others.filterMap clauseOn? := by
  have hclause : clauseOn? = (fun text => (Clause.read text).toOption) ∘ Text.trim := by
    funext line
    rw [Function.comp_apply, clauseOn?]
  rw [hclause, ← List.filterMap_map, ← List.filterMap_map, h]

theorem loadText_eq (path text : String) (reasoner : Reasoner) :
    loadText path text reasoner = loadLines path reasoner 1 (fileLines text) :=
  (loadLines_congr (map_trim_fileLines text) path reasoner 1).symm

/-- Where every line is passed over or holds a clause, these clauses are what loading adds. -/
theorem loadLines_eq (h : ∀ line ∈ lines, Loadable line) (path : String) (reasoner : Reasoner)
    (number : Nat) :
    ∃ log, loadLines path reasoner number lines =
      ⟨reasoner.tellAll (lines.filterMap clauseOn?), log, none⟩ := by
  induction lines generalizing reasoner number with
  | nil => exact ⟨[], rfl⟩
  | cons line lines ih =>
    obtain ⟨hline, hlines⟩ := List.forall_mem_cons.1 h
    cases hclause : clauseOn? line with
    | none =>
      have hpassed : isPassedOver (Text.trim line) := by simpa [Loadable, hclause] using hline
      obtain ⟨log, hrest⟩ := ih hlines reasoner (number + 1)
      refine ⟨log, ?_⟩
      rw [loadLines, if_pos hpassed, hrest, List.filterMap_cons_none hclause]
    | some clause =>
      have hread := clauseOn?_eq_some_iff.1 hclause
      obtain ⟨log, hrest⟩ := ih hlines (reasoner.tell clause).value (number + 1)
      refine ⟨(reasoner.tell clause).log.map Event.entry ++ log, ?_⟩
      have htell : reasoner.tellText (Text.trim line) = .ok (clause, reasoner.tell clause) :=
        Reasoner.tellText_eq_ok_iff.2 ⟨hread, rfl⟩
      simp only [loadLines, isPassedOver_of_read hread, htell, hrest,
        List.filterMap_cons_some hclause, Reasoner.tellAll_cons]
      rfl

theorem textOf_encoded (text : String) : textOf (.ok text.toUTF8.data.toList) = .ok text := by
  have hdecode := Text.decode?_encoded text
  simp only [textOf, bind, Except.bind, hdecode]

theorem loadFile_eq {text : String} (h : ∀ line ∈ fileLines text, Loadable line) (path : String)
    (reasoner : Reasoner) :
    ∃ log, loadFile path (.ok text.toUTF8.data.toList) reasoner =
      ⟨reasoner.tellAll ((fileLines text).filterMap clauseOn?), log, none⟩ := by
  obtain ⟨log, hload⟩ := loadLines_eq h path reasoner 1
  simp only [loadFile, textOf_encoded, loadText_eq, hload]
  exact ⟨_, rfl⟩

end File

end Backchain.Shell
