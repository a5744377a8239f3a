import Backchain.Proofs.Shell.Lines
import Backchain.Shell.Run

/-!
# What a session remembers

A session at the prompt starts from the reasoner that the files left. The reply to a line depends on
this reasoner, on the line and on the clauses that were accepted before it, and on nothing else: a
query leaves no trace of its search, and a listing, a request for help, an empty line and a line
that cannot be read leave none either. So such lines can be struck out of the input, and only their
replies are missing.
-/

namespace Backchain.Shell

-- ---------------------------------------------------------------------------
-- Lines that leave nothing behind
-- ---------------------------------------------------------------------------

/-- The command is a query, a listing, a request for help, or nothing that can be read. A query need
not be readable. -/
inductive Command.Idle : Command → Prop where
  | blank : Idle .blank
  | help : Idle .help
  | facts : Idle .facts
  | rules : Idle .rules
  | query (goal : String) : Idle (.query goal)
  | malformed {text : String} {e : Error} (h : Clause.read text = .error e) : Idle (.clause text)

theorem Command.Idle.clause?_eq_none {command : Command} (h : command.Idle) :
    command.clause? = none := by
  cases h with
  | malformed h =>
    rw [clause?, h]
    rfl
  | _ => rfl

theorem Command.Idle.ne_quit {command : Command} (h : command.Idle) : command ≠ .quit := by
  rintro rfl
  cases h

instance : DecidablePred Command.Idle
  | .blank => isTrue .blank
  | .quit => isFalse fun h => h.ne_quit rfl
  | .help => isTrue .help
  | .facts => isTrue .facts
  | .rules => isTrue .rules
  | .query goal => isTrue (.query goal)
  | .clause text =>
    match h : Clause.read text with
    | .error _ => isTrue (.malformed h)
    | .ok _ => isFalse fun
      | .malformed h' => absurd (h.symm.trans h') nofun

def IdleLine (line : List UInt8) : Prop :=
  ∃ text, Text.decode? line = some text ∧ (Command.ofLine text).Idle

instance : DecidablePred IdleLine := fun line =>
  match h : Text.decode? line with
  | none => isFalse fun ⟨_, htext, _⟩ => absurd (h.symm.trans htext) nofun
  | some text => decidable_of_iff (Command.ofLine text).Idle <| by simp [IdleLine, h]

theorem IdleLine.acceptedOn?_eq_none {line : List UInt8} (h : IdleLine line) :
    acceptedOn? line = none := by
  obtain ⟨text, htext, hidle⟩ := h
  rw [acceptedOn?, htext, Option.bind_some, ← Command.clause?_ofLine, hidle.clause?_eq_none]

theorem IdleLine.endingOn?_eq_none {line : List UInt8} (h : IdleLine line) :
    endingOn? line = none := by
  obtain ⟨text, htext, hidle⟩ := h
  simp [endingOn?, htext, hidle.ne_quit]

-- ---------------------------------------------------------------------------
-- Striking out
-- ---------------------------------------------------------------------------

/-- The list without the entries that are marked. Entries without a mark stay. -/
def strike {α : Type} : (marks : List Bool) → List α → List α
  | true :: marks, _ :: entries => strike marks entries
  | false :: marks, entry :: entries => entry :: strike marks entries
  | _, entries => entries

theorem strike_nil {α : Type} (marks : List Bool) : strike marks ([] : List α) = [] := by
  rcases marks with _ | ⟨_ | _, _⟩ <;> rfl

section Converse

variable {json : Bool}

theorem converse_strike {lines : List (List UInt8)} {marks : List Bool}
    (h : ∀ entry ∈ lines.zip marks, entry.2 = true → IdleLine entry.1) (reasoner : Reasoner) :
    converse json reasoner (strike marks lines) =
      { converse json reasoner lines with
        replies := strike marks (converse json reasoner lines).replies } := by
  induction lines generalizing marks reasoner with
  | nil => simp only [strike_nil, converse]
  | cons line lines ih =>
    cases marks with
    | nil => rfl
    | cons mark marks =>
      obtain ⟨hline, hlines⟩ := List.forall_mem_cons.1 h
      cases mark with
      | true =>
        -- The dialogue goes on after the line as if the line had not been there.
        have hidle : IdleLine line := hline rfl
        rw [converse_cons_of_no_ending hidle.endingOn?_eq_none, hidle.acceptedOn?_eq_none]
        exact ih hlines reasoner
      | false =>
        rw [strike]
        cases hending : endingOn? line with
        | some ending =>
          -- No later line has a reply, so there is nothing left to strike out.
          simp only [converse_cons_of_ending hending, strike, strike_nil]
        | none =>
          simp only [converse_cons_of_no_ending hending, ih hlines, strike]

/-- A line is answered unless a line before it ended the dialogue, and then with what was accepted
before it in mind. -/
theorem getElem?_replies (reasoner : Reasoner) (before : List (List UInt8)) (line : List UInt8)
    (after : List (List UInt8)) :
    (converse json reasoner (before ++ line :: after)).replies[before.length]? =
      if ∀ earlier ∈ before, endingOn? earlier = none then
        some (takeTurn json (reasoner.tellAll (before.filterMap acceptedOn?)) line).reply
      else none := by
  induction before generalizing reasoner with
  | nil =>
    cases hending : endingOn? line with
    | some ending => simp [converse_cons_of_ending hending, Reasoner.tellAll_nil]
    | none => simp [converse_cons_of_no_ending hending, Reasoner.tellAll_nil]
  | cons first before ih =>
    rw [List.cons_append, List.length_cons]
    cases hending : endingOn? first with
    | some ending => simp [converse_cons_of_ending hending, hending]
    | none =>
      rw [converse_cons_of_no_ending hending, ← tellAll_filterMap_cons]
      simpa [hending] using ih _

end Converse

-- ---------------------------------------------------------------------------
-- Sessions
-- ---------------------------------------------------------------------------

def preload (options : Options) (read : String → Content) : Loading :=
  start options (options.paths.map fun path => (path, read path))

def session (options : Options) (read : String → Content) (input : List UInt8) : Dialogue :=
  converse options.json (preload options read).reasoner (Text.lines 10 input)

theorem run_of_failed {arguments : List String} {options : Options} {read : String → Content}
    {failure : LoadFailure} (hread : Options.read arguments = .ok options)
    (hload : (preload options read).failure = some failure) (input : List UInt8) :
    (run arguments read input).output = "" ∧ (run arguments read input).status = 1 := by
  have hstart :
      (start options (options.paths.map fun path => (path, read path))).failure = some failure :=
    hload
  simp [run, hread, runWith, hstart]

theorem run_of_loaded {arguments : List String} {options : Options} {read : String → Content}
    (hread : Options.read arguments = .ok options) (hload : (preload options read).failure = none)
    (input : List UInt8) :
    (run arguments read input).output = (session options read input).output ∧
      (run arguments read input).status = (session options read input).ending.status := by
  have hstart : (start options (options.paths.map fun path => (path, read path))).failure = none :=
    hload
  simp only [run, hread, runWith, hstart]
  exact ⟨rfl, rfl⟩

/-- Where the files load, the output of a session is a prompt and a reply for each line, and the
reply is decided by the options, the reasoner that the files left, the line and the clauses that
were accepted before it. The first line that is no text, or asks to quit, ends the session, and an
idle line is neither. When idle lines are struck out of the input, their replies are struck out and
nothing else changes. -/
theorem replies_remember_accepted_clauses {arguments : List String} {options : Options}
    {read : String → Content} (hread : Options.read arguments = .ok options)
    (hload : (preload options read).failure = none) (input : List UInt8) :
    let loaded := (preload options read).reasoner
    let dialogue := session options read input
    (run arguments read input).output = dialogue.output ∧
      (∀ before line after, Text.lines 10 input = before ++ line :: after →
        dialogue.replies[before.length]? =
          if ∀ earlier ∈ before, endingOn? earlier = none then
            some (takeTurn options.json (loaded.tellAll (before.filterMap acceptedOn?)) line).reply
          else none) ∧
      dialogue.ending = ((Text.lines 10 input).findSome? endingOn?).getD .endOfInput ∧
      (∀ line, IdleLine line → endingOn? line = none) ∧
      ∀ (thinned : List UInt8) (marks : List Bool),
        Text.lines 10 thinned = strike marks (Text.lines 10 input) →
        (∀ entry ∈ (Text.lines 10 input).zip marks, entry.2 = true → IdleLine entry.1) →
        (run arguments read thinned).output =
          { dialogue with replies := strike marks dialogue.replies }.output := by
  intro loaded dialogue
  refine ⟨(run_of_loaded hread hload input).1, ?_, converse_ending _ _ _,
    fun line hidle => hidle.endingOn?_eq_none, ?_⟩
  · intro before line after hlines
    rw [show dialogue = _ from congrArg (converse options.json loaded) hlines]
    exact getElem?_replies loaded before line after
  · intro thinned marks hthinned hidle
    rw [(run_of_loaded hread hload thinned).1, session, hthinned, converse_strike hidle]
    rfl

theorem pets_session_without_idle_lines :
    let pets : String → Content := fun _ => .ok "cat(tom).".toUTF8.data.toList
    let options : Options := { paths := ["pets"] }
    let input := "?- cat(X)\ncat(\nowns(ana, X) :- cat(X).\nfacts\n?- owns(Y, tom)\nquit\nhelp"
    let thinned := "owns(ana, X) :- cat(X).\n?- owns(Y, tom)\nquit\nhelp\n"
    let marks := [true, true, false, true]
    let lines := Text.lines 10 input.toUTF8.data.toList
    Options.read ["pets"] = .ok options ∧ (preload options pets).failure = none ∧
      Text.lines 10 thinned.toUTF8.data.toList = strike marks lines ∧
      (∀ entry ∈ lines.zip marks, entry.2 = true → IdleLine entry.1) ∧
      (run ["pets"] pets thinned.toUTF8.data.toList).output =
        "| Rule owns(ana, X) :- cat(X) added.\n" ++
          "| Query owns(Y, tom) is satisfied:\n  \x7bY: ana, X: tom\x7d\n| " := by
  intro pets options input thinned marks lines
  have hread : Options.read ["pets"] = .ok options := by decide +kernel
  have hload : (preload options pets).failure = none := by decide +kernel
  have hthinned : Text.lines 10 thinned.toUTF8.data.toList = strike marks lines := by
    decide +kernel
  have hidle : ∀ entry ∈ lines.zip marks, entry.2 = true → IdleLine entry.1 := by decide +kernel
  obtain ⟨-, -, -, -, houtput⟩ :=
    replies_remember_accepted_clauses hread hload input.toUTF8.data.toList
  refine ⟨hread, hload, hthinned, hidle, ?_⟩
  rw [houtput _ marks hthinned hidle]
  decide +kernel

end Backchain.Shell
