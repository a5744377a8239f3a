import Backchain.Proofs.Shell.Loading
import Backchain.Proofs.Shell.Preloading

/-!
# How a run ends

A run succeeds if its files load and its input is text as far as it is read, that is up to the first
line that asks to quit. Otherwise its status is 1. What is due is written in any case: a failure of
the files comes before the first prompt, and a line that is no text after the replies to the lines
before it and one more prompt.
-/

namespace Backchain.Shell

-- ---------------------------------------------------------------------------
-- Lines that end a dialogue
-- ---------------------------------------------------------------------------

def AsksToQuit (line : List UInt8) : Prop :=
  ∃ text, Text.decode? line = some text ∧ (Text.trim text = "quit" ∨ Text.trim text = "exit")

def Ends (line : List UInt8) : Prop := Text.decode? line = none ∨ AsksToQuit line

theorem Command.ofLine_eq_quit_iff {line : String} :
    ofLine line = .quit ↔ Text.trim line = "quit" ∨ Text.trim line = "exit" := by
  constructor
  · intro h
    unfold ofLine at h
    split at h
    · cases h
    · exact .inl ‹_›
    · exact .inr ‹_›
    · cases h
    · cases h
    · cases h
    · split at h <;> cases h
  · rintro (h | h) <;> simp [ofLine, h]

theorem endingOn?_eq_notUtf8_iff {line : List UInt8} :
    endingOn? line = some .notUtf8 ↔ Text.decode? line = none := by
  unfold endingOn?
  cases Text.decode? line with
  | none => simp
  | some text => simp

theorem endingOn?_eq_quit_iff {line : List UInt8} :
    endingOn? line = some .quit ↔ AsksToQuit line := by
  unfold endingOn? AsksToQuit
  cases Text.decode? line with
  | none => simp
  | some text => simp [Command.ofLine_eq_quit_iff, or_iff_not_imp_left]

theorem endingOn?_ne_endOfInput (line : List UInt8) : endingOn? line ≠ some .endOfInput := by
  unfold endingOn?
  cases Text.decode? line with
  | none => simp
  | some text => simp

theorem endingOn?_eq_none_iff {line : List UInt8} : endingOn? line = none ↔ ¬ Ends line := by
  rw [Ends, ← endingOn?_eq_notUtf8_iff, ← endingOn?_eq_quit_iff]
  cases h : endingOn? line with
  | none => simp
  | some ending =>
    cases ending with
    | endOfInput => exact absurd h (endingOn?_ne_endOfInput line)
    | quit => simp
    | notUtf8 => simp

theorem Ends.exists_ending {line : List UInt8} (h : Ends line) :
    ∃ ending, endingOn? line = some ending ∧ ending ≠ .endOfInput := by
  rcases h with h | h
  · exact ⟨.notUtf8, endingOn?_eq_notUtf8_iff.2 h, nofun⟩
  · exact ⟨.quit, endingOn?_eq_quit_iff.2 h, nofun⟩

instance : DecidablePred Ends := fun line =>
  decidable_of_iff ((endingOn? line).isSome) <| by
    rw [← not_iff_not, ← endingOn?_eq_none_iff]
    simp

/-- Every line is text, up to the first that asks to quit. -/
def TextUntilQuit (lines : List (List UInt8)) : Prop :=
  ∀ before line after, lines = before ++ line :: after →
    (∀ earlier ∈ before, ¬ AsksToQuit earlier) → (Text.decode? line).isSome

section Ending
variable {json : Bool} {reasoner : Reasoner} {lines : List (List UInt8)}

theorem ending_eq_notUtf8_iff :
    (converse json reasoner lines).ending = .notUtf8 ↔ ¬ TextUntilQuit lines := by
  rw [converse_ending]
  constructor
  · intro h htext
    have hfound : lines.findSome? endingOn? = some .notUtf8 := by
      cases hfirst : lines.findSome? endingOn? with
      | none => simp [hfirst] at h
      | some ending => simpa [hfirst] using h
    obtain ⟨before, line, after, hlines, hline, hbefore⟩ := List.findSome?_eq_some_iff.1 hfound
    have hdecoded := htext before line after hlines fun earlier hm hquit =>
      endingOn?_eq_none_iff.1 (hbefore earlier hm) (.inr hquit)
    simp [endingOn?_eq_notUtf8_iff.1 hline] at hdecoded
  · intro h
    simp only [TextUntilQuit, not_forall, Option.not_isSome_iff_eq_none] at h
    obtain ⟨before, line, after, hlines, hbefore, hline⟩ := h
    rw [hlines, List.findSome?_append]
    -- A line before it that ends the dialogue does so in the same way, since none asks to quit.
    cases hfirst : before.findSome? endingOn? with
    | none => simp [endingOn?_eq_notUtf8_iff.2 hline]
    | some ending =>
      obtain ⟨earlier, hm, hearlier⟩ := List.exists_of_findSome?_eq_some hfirst
      cases ending with
      | endOfInput => exact absurd hearlier (endingOn?_ne_endOfInput earlier)
      | quit => exact absurd (endingOn?_eq_quit_iff.1 hearlier) (hbefore earlier hm)
      | notUtf8 => rfl

theorem ending_eq_endOfInput_iff :
    (converse json reasoner lines).ending = .endOfInput ↔ ∀ line ∈ lines, ¬ Ends line := by
  simp only [converse_ending, ← endingOn?_eq_none_iff, ← List.findSome?_eq_none_iff]
  cases hfirst : lines.findSome? endingOn? with
  | none => simp
  | some ending =>
    obtain ⟨line, -, hline⟩ := List.exists_of_findSome?_eq_some hfirst
    have hne : ending ≠ .endOfInput := by
      rintro rfl
      exact endingOn?_ne_endOfInput line hline
    simpa using hne

end Ending

-- ---------------------------------------------------------------------------
-- What is done
-- ---------------------------------------------------------------------------

/-- What the shell does at the prompt, one after the other. -/
inductive Action where
  | prompt
  | take (line : List UInt8)
  | say (text : String)
deriving DecidableEq

namespace Action

def output : Action → String
  | .prompt => Shell.prompt
  | .take _ => ""
  | .say text => text

def taken? : Action → Option (List UInt8)
  | .take line => some line
  | _ => none

end Action

/-- A prompt, then a line and the reply to it, and again, unless the line ends the dialogue. Where
there is no line after a prompt, the input has ended. -/
def actions (json : Bool) (reasoner : Reasoner) : List (List UInt8) → List Action
  | [] => [.prompt]
  | line :: rest =>
    let turn := takeTurn json reasoner line
    [.prompt, .take line, .say turn.reply.text] ++
      match turn.ending with
      | some _ => []
      | none => actions json turn.reasoner rest

section Actions
variable {json : Bool} {reasoner : Reasoner} {line : List UInt8} {lines : List (List UInt8)}

theorem actions_cons :
    actions json reasoner (line :: lines) =
      [.prompt, .take line, .say (takeTurn json reasoner line).reply.text] ++
        if Ends line then []
        else actions json (reasoner.tellAll (acceptedOn? line).toList) lines := by
  rw [actions, takeTurn_ending, takeTurn_reasoner]
  by_cases h : Ends line
  · obtain ⟨ending, hending, -⟩ := h.exists_ending
    rw [hending, if_pos h]
  · rw [endingOn?_eq_none_iff.2 h, if_neg h]

theorem join_output_actions (json : Bool) (reasoner : Reasoner) (lines : List (List UInt8)) :
    String.join ((actions json reasoner lines).map Action.output) =
      (converse json reasoner lines).output := by
  induction lines generalizing reasoner with
  | nil => rfl
  | cons line lines ih =>
    rw [actions_cons]
    by_cases h : Ends line
    · obtain ⟨ending, hending, hne⟩ := h.exists_ending
      rw [converse_cons_of_ending hending, if_pos h]
      simp [Dialogue.output, Action.output, hne]
    · rw [converse_cons_of_no_ending (endingOn?_eq_none_iff.2 h), if_neg h]
      simp [Dialogue.output, Action.output, ih, String.append_assoc]

theorem filterMap_taken?_actions (json : Bool) (reasoner : Reasoner) (lines : List (List UInt8)) :
    (actions json reasoner lines).filterMap Action.taken? =
      lines.take (lines.findIdx (Ends ·) + 1) := by
  induction lines generalizing reasoner with
  | nil => rfl
  | cons line lines ih =>
    rw [actions_cons, List.findIdx_cons]
    by_cases h : Ends line
    · simp [h, List.filterMap_cons, Action.taken?]
    · simp [h, List.filterMap_cons, Action.taken?, ih]

theorem count_prompt_actions (json : Bool) (reasoner : Reasoner) (lines : List (List UInt8)) :
    (actions json reasoner lines).count .prompt =
      ((actions json reasoner lines).filterMap Action.taken?).length +
        if ∀ line ∈ lines, ¬ Ends line then 1 else 0 := by
  induction lines generalizing reasoner with
  | nil => rfl
  | cons line lines ih =>
    rw [actions_cons]
    by_cases h : Ends line
    · simp [h, List.filterMap_cons, Action.taken?]
    · simp [h, List.filterMap_cons, Action.taken?, ih]
      omega

end Actions

-- ---------------------------------------------------------------------------
-- Runs
-- ---------------------------------------------------------------------------

def sessionActions (options : Options) (read : String → Content) (input : List UInt8) :
    List Action :=
  match (preload options read).failure with
  | some _ => []
  | none => actions options.json (preload options read).reasoner (Text.lines 10 input)

section Session
variable {options : Options} {read : String → Content}

theorem sessionActions_of_loads (h : Loads options read) (input : List UInt8) :
    sessionActions options read input =
      actions options.json (preload options read).reasoner (Text.lines 10 input) := by
  rw [sessionActions, preload_failure_eq_none_iff.2 h]

theorem sessionActions_of_not_loads (h : ¬ Loads options read) (input : List UInt8) :
    sessionActions options read input = [] := by
  obtain ⟨failure, hfailure⟩ := exists_failure_of_not_loads h
  rw [sessionActions, hfailure]

theorem filterMap_taken?_sessionActions (options : Options) (read : String → Content)
    (input : List UInt8) :
    (sessionActions options read input).filterMap Action.taken? =
      if Loads options read then
        (Text.lines 10 input).take ((Text.lines 10 input).findIdx (Ends ·) + 1)
      else [] := by
  by_cases h : Loads options read
  · rw [sessionActions_of_loads h, filterMap_taken?_actions, if_pos h]
  · rw [sessionActions_of_not_loads h, if_neg h, List.filterMap_nil]

theorem count_prompt_sessionActions (options : Options) (read : String → Content)
    (input : List UInt8) :
    let lines := Text.lines 10 input
    (sessionActions options read input).count .prompt =
      ((sessionActions options read input).filterMap Action.taken?).length +
        if Loads options read ∧ ∀ line ∈ lines, ¬ Ends line then 1 else 0 := by
  intro lines
  by_cases h : Loads options read
  · simp only [sessionActions_of_loads h, count_prompt_actions, h, true_and, lines]
  · simp [sessionActions_of_not_loads h, h]

end Session

theorem output_of_no_ending {json : Bool} {reasoner : Reasoner} {lines : List (List UInt8)}
    (h : ∀ line ∈ lines, ¬ Ends line) :
    (converse json reasoner lines).output =
      String.join ((converse json reasoner lines).replies.map fun reply => prompt ++ reply.text) ++
        prompt := by
  rw [Dialogue.output, if_pos (ending_eq_endOfInput_iff.2 h)]

/-- A line that is no text has the output end as the end of the input would. -/
theorem output_of_notUtf8 {before after : List (List UInt8)} {line : List UInt8}
    (hbefore : ∀ earlier ∈ before, ¬ Ends earlier) (hline : Text.decode? line = none) (json : Bool)
    (reasoner : Reasoner) :
    (converse json reasoner (before ++ line :: after)).output =
      (converse json reasoner before).output := by
  have hreply (reasoner : Reasoner) : (takeTurn json reasoner line).reply = {} := by
    simp [takeTurn, hline]
  rw [output_of_no_ending hbefore,
    converse_append fun earlier hm => endingOn?_eq_none_iff.2 (hbefore earlier hm),
    converse_cons_of_ending (endingOn?_eq_notUtf8_iff.2 hline), Dialogue.output_append, hreply]
  rfl

theorem Ending.status_eq_zero_iff {ending : Ending} : ending.status = 0 ↔ ending ≠ .notUtf8 := by
  cases ending <;> simp [status]

section Run
variable {arguments : List String} {options : Options} {read : String → Content}
  (hread : Options.read arguments = .ok options)
include hread

theorem run_status_eq_zero_iff (input : List UInt8) :
    (run arguments read input).status = 0 ↔
      Loads options read ∧ TextUntilQuit (Text.lines 10 input) := by
  rw [← preload_failure_eq_none_iff]
  cases hload : (preload options read).failure with
  | some failure => simp [(run_of_failed hread hload input).2]
  | none =>
    rw [(run_of_loaded hread hload input).2, Ending.status_eq_zero_iff, session, Ne,
      ending_eq_notUtf8_iff, not_not]
    simp

theorem run_status_eq_zero_or_one (input : List UInt8) :
    (run arguments read input).status = 0 ∨ (run arguments read input).status = 1 := by
  cases hload : (preload options read).failure with
  | some failure => exact .inr (run_of_failed hread hload input).2
  | none =>
    rw [(run_of_loaded hread hload input).2]
    cases (session options read input).ending <;> simp [Ending.status]

theorem run_output_of_not_loads (hloads : ¬ Loads options read) (input : List UInt8) :
    (run arguments read input).output = "" := by
  obtain ⟨failure, hfailure⟩ := exists_failure_of_not_loads hloads
  exact (run_of_failed hread hfailure input).1

theorem run_output_of_loads (hloads : Loads options read) (input : List UInt8) :
    (run arguments read input).output = (session options read input).output :=
  (run_of_loaded hread (preload_failure_eq_none_iff.2 hloads) input).1

theorem run_output_eq_join (input : List UInt8) :
    (run arguments read input).output =
      String.join ((sessionActions options read input).map Action.output) := by
  by_cases hloads : Loads options read
  · rw [run_output_of_loads hread hloads, sessionActions_of_loads hloads, join_output_actions,
      session]
  · rw [run_output_of_not_loads hread hloads, sessionActions_of_not_loads hloads]
    rfl

end Run

/-- A run succeeds exactly if its files load and every line of its input is text, up to the first
that asks to quit, and has the status 1 otherwise. Nothing is written where the files do not load. A
line that is no text ends the output as the end of the input would after the lines before it, with
one more prompt. In any case the output is what the prompts and the replies make up. Lines are taken
up to the first that is no text or asks to quit, and there is a prompt for each of them, and one
more if there is no such line. -/
theorem run_status_and_output {arguments : List String} {options : Options}
    {read : String → Content} (hread : Options.read arguments = .ok options) (input : List UInt8) :
    let lines := Text.lines 10 input
    let report := run arguments read input
    let done := sessionActions options read input
    (report.status = 0 ↔ Loads options read ∧ TextUntilQuit lines) ∧
      (report.status = 0 ∨ report.status = 1) ∧
      (¬ Loads options read → report.output = "") ∧
      (Loads options read → ∀ before line after, lines = before ++ line :: after →
        (∀ earlier ∈ before, ¬ Ends earlier) → Text.decode? line = none →
          let typed := before.flatMap (· ++ [10])
          report.output = (run arguments read typed).output ∧
            report.output =
              String.join ((session options read typed).replies.map fun reply =>
                prompt ++ reply.text) ++ prompt) ∧
      report.output = String.join (done.map Action.output) ∧
      done.filterMap Action.taken? =
        (if Loads options read then lines.take (lines.findIdx (Ends ·) + 1) else []) ∧
      done.count .prompt = (done.filterMap Action.taken?).length +
        if Loads options read ∧ ∀ line ∈ lines, ¬ Ends line then 1 else 0 := by
  intro lines report done
  refine ⟨run_status_eq_zero_iff hread input, run_status_eq_zero_or_one hread input,
    fun hloads => run_output_of_not_loads hread hloads input, ?_, run_output_eq_join hread input,
    filterMap_taken?_sessionActions options read input,
    count_prompt_sessionActions options read input⟩
  intro hloads before line after hlines hbefore hline typed
  have hfeed : ∀ earlier ∈ before, 10 ∉ earlier := fun earlier hm =>
    Text.not_mem_of_mem_lines (hlines ▸ List.mem_append_left _ hm)
  have htyped : session options read typed =
      converse options.json (preload options read).reasoner before :=
    congrArg _ (Text.lines_flatMap hfeed)
  have houtput : report.output = (session options read typed).output := by
    rw [run_output_of_loads hread hloads, htyped, ← output_of_notUtf8 hbefore hline, ← hlines,
      session]
  refine ⟨houtput.trans (run_output_of_loads hread hloads typed).symm, ?_⟩
  rw [houtput, htyped]
  exact output_of_no_ending hbefore

/-- The second line is a byte that starts no character, so the request to quit is not read. -/
theorem run_stops_at_stray_byte :
    let cats : String → Content := fun _ => .ok "cat(tom).\n% cat(felix)".toUTF8.data.toList
    let input := "?- cat(X)\n".toUTF8.data.toList ++ [255, 10] ++ "quit\n".toUTF8.data.toList
    let output := "| Query cat(X) is satisfied:\n  \x7bX: tom\x7d\n| "
    let done := sessionActions { paths := ["cats"] } cats input
    Options.read ["cats"] = .ok { paths := ["cats"] } ∧ Loads { paths := ["cats"] } cats ∧
      (run ["cats"] cats input).status = 1 ∧ (run ["cats"] cats input).output = output ∧
      (run ["cats"] cats "?- cat(X)\n".toUTF8.data.toList).output = output ∧
      done.filterMap Action.taken? = ["?- cat(X)".toUTF8.data.toList, [255]] ∧
      done.count .prompt = 2 := by
  intro cats input output done
  have hread : Options.read ["cats"] = .ok { paths := ["cats"] } := by decide +kernel
  have hloads : Loads { paths := ["cats"] } cats := by decide +kernel
  have hlines : Text.lines 10 input =
      ["?- cat(X)".toUTF8.data.toList] ++ [255] :: ["quit".toUTF8.data.toList] := by decide +kernel
  have hbefore : ∀ earlier ∈ ["?- cat(X)".toUTF8.data.toList], ¬ Ends earlier := by decide +kernel
  have hstray : Text.decode? [255] = none := by decide +kernel
  obtain ⟨hzero, hstatus, -, hstopped, -, htaken, hprompts⟩ := run_status_and_output hread input
  obtain ⟨htyped, hwritten⟩ := hstopped hloads _ _ _ hlines hbefore hstray
  have hfailed : (run ["cats"] cats input).status ≠ 0 := by
    intro h
    have hdecoded := (hzero.1 h).2 _ _ _ hlines fun earlier hm hquit =>
      hbefore earlier hm (.inr hquit)
    rw [hstray] at hdecoded
    cases hdecoded
  have houtput : (run ["cats"] cats input).output = output := hwritten.trans (by decide +kernel)
  have hlast : done.filterMap Action.taken? = ["?- cat(X)".toUTF8.data.toList, [255]] := by
    rw [htaken, if_pos hloads]
    decide +kernel
  refine ⟨hread, hloads, hstatus.resolve_left hfailed, houtput, ?_, hlast, ?_⟩
  · rw [← houtput, htyped]
    decide +kernel
  · rw [hprompts, hlast]
    decide +kernel

end Backchain.Shell
