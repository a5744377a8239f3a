import Backchain.Proofs.Shell.Sessions

/-!
# Preloading and typing

The lines of a file can be loaded before the prompt or typed at it. The two readers cut a text into
lines, and tell clauses from what is none, in ways of their own. But a line that is blank or holds a
clause is the same to both of them, so they leave the same reasoner, and a session goes on from
there as the other does.
-/

namespace Backchain.Shell

-- ---------------------------------------------------------------------------
-- One more path
-- ---------------------------------------------------------------------------

section Arguments

variable {options result : Options} {arguments : List String} {path : String}

theorem Options.bind_readFrom_concat {taken : Except Stop Options}
    (h : (taken >>= fun options => options.readFrom arguments) = .ok result)
    (ih : ∀ options : Options, options.readFrom arguments = .ok result →
      options.readFrom (arguments ++ [path]) = result.addPath path) :
    (taken >>= fun options => options.readFrom (arguments ++ [path])) = result.addPath path := by
  obtain ⟨options, htaken, hrest⟩ := bind_eq_ok_iff.1 h
  rw [htaken]
  exact ih options hrest

theorem Options.readFrom_concat (h : options.readFrom arguments = .ok result)
    (hpath : Argument.ofString path = .path path) :
    options.readFrom (arguments ++ [path]) = result.addPath path := by
  have hself : (result.addPath path >>= fun options => options.readFrom []) =
      result.addPath path := by
    cases result.addPath path <;> rfl
  -- The cases are those of the reader. Where an option is taken, reading goes on with the options
  -- that it gave; the other cases are the refusals.
  fun_induction readFrom options arguments
  case case1 =>
    cases h
    rw [List.nil_append, readFrom.eq_def]
    simp only [hpath]
    exact hself
  case case2 hend =>
    rw [List.cons_append, readFrom.eq_def]
    simp only [hend, List.foldlM_append, h]
    exact hself
  case case3 hargument ih | case4 hargument ih | case5 hargument ih | case11 hargument ih =>
    rw [List.cons_append, readFrom.eq_def]
    simp only [hargument]
    exact bind_readFrom_concat h ih
  case case8 hargument value rest hvalue ih =>
    rw [List.cons_append, readFrom.eq_def]
    simp only [hargument, List.cons_append, if_neg hvalue]
    exact bind_readFrom_concat h ih
  case case6 | case7 | case9 | case10 => cases h

theorem Options.read_concat (h : Options.read arguments = .ok options)
    (hpath : Argument.ofString path = .path path) (hne : path ≠ "") :
    Options.read (arguments ++ [path]) = .ok { options with paths := options.paths ++ [path] } := by
  rw [read, readFrom_concat h hpath, addPath, if_neg hne]

end Arguments

-- ---------------------------------------------------------------------------
-- One more file
-- ---------------------------------------------------------------------------

namespace Loading

theorem andThen_nothing (loading : Loading) :
    (loading.andThen fun reasoner => ⟨reasoner, [], none⟩) = loading := by
  obtain ⟨reasoner, log, failure⟩ := loading
  cases failure <;> simp [andThen, after]

theorem after_andThen (earlier : List LogEntry) (loading : Loading) (next : Reasoner → Loading) :
    (loading.after earlier).andThen next = (loading.andThen next).after earlier := by
  obtain ⟨reasoner, log, failure⟩ := loading
  cases failure <;> simp [andThen, after]

theorem andThen_assoc (loading : Loading) (next last : Reasoner → Loading) :
    (loading.andThen next).andThen last =
      loading.andThen fun reasoner => (next reasoner).andThen last := by
  obtain ⟨reasoner, log, failure⟩ := loading
  cases failure with
  | some failure => rfl
  | none => exact after_andThen log (next reasoner) last

end Loading

theorem loadFiles_append (files others : List (String × Content)) (reasoner : Reasoner) :
    loadFiles (files ++ others) reasoner =
      (loadFiles files reasoner).andThen (loadFiles others) := by
  induction files generalizing reasoner with
  | nil => simp [loadFiles, Loading.andThen, Loading.after]
  | cons file files ih =>
    rw [List.cons_append, loadFiles, loadFiles, Loading.andThen_assoc]
    exact congrArg _ (funext ih)

theorem preload_concat (options : Options) (path : String) (read : String → Content) :
    preload { options with paths := options.paths ++ [path] } read =
      (preload options read).andThen (loadFile path (read path)) := by
  have hlast : loadFiles [(path, read path)] = loadFile path (read path) :=
    funext fun reasoner => (loadFile path (read path) reasoner).andThen_nothing
  simp only [preload, start, List.map_append, List.map_singleton, loadFiles_append, hlast,
    Loading.after_andThen]
  rfl

-- ---------------------------------------------------------------------------
-- Lines for both readers
-- ---------------------------------------------------------------------------

def Enterable (line : String) : Prop :=
  Text.trim line = "" ∨ ∃ clause, Clause.read (Text.trim line) = .ok clause

instance : DecidablePred Enterable := fun line =>
  decidable_of_iff (Text.trim line = "" ∨ (clauseOn? line).isSome) <| by
    simp [Enterable, Option.isSome_iff_exists, clauseOn?_eq_some_iff]

theorem Enterable.loadable {line : String} (h : Enterable line) : Loadable line := by
  rcases h with hblank | ⟨clause, hread⟩
  · exact .inl (by simp [isPassedOver, hblank])
  · exact .inr (by simp [clauseOn?_eq_some_iff.2 hread])

theorem acceptedOn?_encoded (line : String) :
    acceptedOn? line.toUTF8.data.toList = clauseOn? line := by
  rw [acceptedOn?, Text.decode?_encoded, Option.bind_some]

theorem Enterable.endingOn?_encoded {line : String} (h : Enterable line) :
    endingOn? line.toUTF8.data.toList = none := by
  have hcommand : Command.ofLine line ≠ .quit := by
    rcases h with hblank | ⟨clause, hread⟩
    · simp [Command.ofLine, hblank]
    · simp [ofLine_of_read hread]
  rw [endingOn?, Text.decode?_encoded]
  exact if_neg hcommand

def typedLines (text : String) : List UInt8 :=
  (Text.lines 10 text.toUTF8.data.toList).flatMap (· ++ [10])

theorem lines_typedLines_append (text : String) (further : List UInt8) :
    Text.lines 10 (typedLines text ++ further) =
      Text.lines 10 text.toUTF8.data.toList ++ Text.lines 10 further :=
  Text.lines_flatMap_append (fun _ => Text.not_mem_of_mem_lines) _

theorem lines_typedLines (text : String) :
    Text.lines 10 (typedLines text) = Text.lines 10 text.toUTF8.data.toList :=
  Text.lines_flatMap fun _ => Text.not_mem_of_mem_lines

theorem filterMap_acceptedOn? (text : String) :
    (Text.lines 10 text.toUTF8.data.toList).filterMap acceptedOn? =
      (fileLines text).filterMap clauseOn? := by
  rw [Text.lines_toUTF8, filterMap_clauseOn?_congr (map_trim_fileLines text), List.filterMap_map,
    List.filterMap_map]
  refine List.filterMap_congr fun line _ => ?_
  rw [Function.comp_apply, Function.comp_apply, acceptedOn?_encoded]

theorem endingOn?_eq_none_of_enterable {text : String}
    (h : ∀ line ∈ fileLines text, Enterable line) :
    ∀ line ∈ Text.lines 10 text.toUTF8.data.toList, endingOn? line = none := by
  intro line hm
  rw [Text.lines_toUTF8] at hm
  obtain ⟨whole, hwhole, rfl⟩ := List.mem_map.1 hm
  have htrim : Text.trim (String.ofList whole) ∈ (fileLines text).map Text.trim := by
    rw [map_trim_fileLines]
    exact List.mem_map_of_mem (List.mem_map_of_mem hwhole)
  obtain ⟨other, hother, heq⟩ := List.mem_map.1 htrim
  refine Enterable.endingOn?_encoded ?_
  rw [Enterable, ← heq]
  exact h other hother

-- ---------------------------------------------------------------------------
-- Two sessions
-- ---------------------------------------------------------------------------

section Sessions

variable (options : Options) {path text : String} {read : String → Content}

/-- A file of clauses after the other files fails no more than they do. -/
theorem preload_concat_text (hfile : read path = .ok text.toUTF8.data.toList)
    (hlines : ∀ line ∈ fileLines text, Enterable line) :
    let loaded := preload options read
    let preloaded := preload { options with paths := options.paths ++ [path] } read
    preloaded.failure = loaded.failure ∧
      (loaded.failure = none →
        preloaded.reasoner = loaded.reasoner.tellAll ((fileLines text).filterMap clauseOn?)) := by
  intro loaded preloaded
  have hpreloaded : preloaded = loaded.andThen (loadFile path (.ok text.toUTF8.data.toList)) :=
    hfile ▸ preload_concat options path read
  obtain ⟨log, hload⟩ := loadFile_eq (fun line hm => (hlines line hm).loadable) path loaded.reasoner
  rw [hpreloaded, Loading.andThen]
  cases hfailure : loaded.failure with
  | some failure => exact ⟨hfailure, nofun⟩
  | none =>
    rw [hload]
    exact ⟨rfl, fun _ => rfl⟩

theorem session_typedLines_append (read : String → Content)
    (hlines : ∀ line ∈ fileLines text, Enterable line) (further : List UInt8) :
    let typing := session options read (typedLines text)
    let later := converse options.json typing.reasoner (Text.lines 10 further)
    typing.reasoner =
        (preload options read).reasoner.tellAll ((fileLines text).filterMap clauseOn?) ∧
      typing.replies.length = (fileLines text).length ∧
      session options read (typedLines text ++ further) =
        { later with replies := typing.replies ++ later.replies } := by
  intro typing later
  have hendings := endingOn?_eq_none_of_enterable hlines
  have htyping : typing = converse options.json (preload options read).reasoner
      (Text.lines 10 text.toUTF8.data.toList) := congrArg _ (lines_typedLines text)
  have hreasoner := converse_reasoner hendings options.json (preload options read).reasoner
  have happend := converse_append hendings options.json (preload options read).reasoner
    (Text.lines 10 further)
  rw [← htyping] at hreasoner happend
  rw [← lines_typedLines_append, ← hreasoner] at happend
  refine ⟨by rw [hreasoner, filterMap_acceptedOn?], ?_, happend⟩
  rw [htyping, length_replies hendings, Text.lines_toUTF8, List.length_map]
  simpa using (congrArg List.length (map_trim_fileLines text)).symm

end Sessions

theorem Dialogue.output_append (replies : List Reply) (later : Dialogue) :
    { later with replies := replies ++ later.replies }.output =
      String.join (replies.map fun reply => prompt ++ reply.text) ++ later.output := by
  simp [output, String.append_assoc]

/-- Let each line of a text be blank or hold a clause. A session that loads the text from a file
after its other files, and one that gets its lines typed before all further input, start or fail
alike. When they start, both come to hold the clauses of the text in its order after those of the
other files, the second after one reply for each line. From there on they are the same session. -/
theorem preloading_is_typing {arguments preloading : List String} {options : Options}
    {path text : String} {read : String → Content} (hread : Options.read arguments = .ok options)
    (hpreloading : Options.read preloading = .ok { options with paths := options.paths ++ [path] })
    (hfile : read path = .ok text.toUTF8.data.toList)
    (hlines : ∀ line ∈ fileLines text, Enterable line) (further : List UInt8) :
    let withFile : Options := { options with paths := options.paths ++ [path] }
    let loaded := preload options read
    let typing := session options read (typedLines text)
    let later := session withFile read further
    let clauses := (fileLines text).filterMap clauseOn?
    (preload withFile read).failure = loaded.failure ∧
      (run arguments read (typedLines text ++ further)).status =
        (run preloading read further).status ∧
      (loaded.failure = none →
        (preload withFile read).reasoner = loaded.reasoner.tellAll clauses ∧
          typing.reasoner = loaded.reasoner.tellAll clauses ∧
          typing.replies.length = (fileLines text).length ∧
          session options read (typedLines text ++ further) =
            { later with replies := typing.replies ++ later.replies } ∧
          (run arguments read (typedLines text ++ further)).output =
            String.join (typing.replies.map fun reply => prompt ++ reply.text) ++
              (run preloading read further).output) := by
  intro withFile loaded typing later clauses
  obtain ⟨hfailure, hreasoner⟩ := preload_concat_text options hfile hlines
  obtain ⟨htyped, hlength, hsession⟩ := session_typedLines_append options read hlines further
  refine ⟨hfailure, ?_⟩
  cases hload : loaded.failure with
  | some failure =>
    have hfailed : (preload withFile read).failure = some failure := hfailure.trans hload
    rw [(run_of_failed hread hload _).2, (run_of_failed hpreloading hfailed further).2]
    exact ⟨rfl, nofun⟩
  | none =>
    have hpreloaded : (preload withFile read).failure = none := hfailure.trans hload
    have hlater : session options read (typedLines text ++ further) =
        { later with replies := typing.replies ++ later.replies } := by
      rw [hsession, htyped, ← hreasoner hload]
      rfl
    obtain ⟨htypingOutput, htypingStatus⟩ :=
      run_of_loaded hread hload (typedLines text ++ further)
    obtain ⟨hfileOutput, hfileStatus⟩ := run_of_loaded hpreloading hpreloaded further
    rw [htypingStatus, htypingOutput, hfileStatus, hfileOutput, hlater]
    exact ⟨rfl, fun _ => ⟨hreasoner hload, htyped, hlength, rfl, Dialogue.output_append _ _⟩⟩

theorem pets_preloaded_or_typed :
    let text := "cat(tom).\r\n\n\u00a0 owns(ana, X) :- cat(X)\r\n \t\ncat(%7)"
    let read : String → Content := fun _ => .ok text.toUTF8.data.toList
    let further := "?- owns(Y, Z)".toUTF8.data.toList
    let typing := session { json := true } read (typedLines text)
    Options.read ["--json"] = .ok { json := true } ∧
      Options.read ["--json", "pets"] = .ok { json := true, paths := ["pets"] } ∧
      read "pets" = .ok text.toUTF8.data.toList ∧ (∀ line ∈ fileLines text, Enterable line) ∧
      typing.reasoner.knowledge.clauses.length = 3 ∧
      (run ["--json"] read (typedLines text ++ further)).output =
        String.join (typing.replies.map fun reply => prompt ++ reply.text) ++
          (run ["--json", "pets"] read further).output := by
  intro text read further typing
  have hread : Options.read ["--json"] = .ok { json := true } := by decide +kernel
  have hpreloading : Options.read ["--json", "pets"] = .ok { json := true, paths := ["pets"] } :=
    Options.read_concat hread (by decide +kernel) (by decide)
  have hfile : read "pets" = .ok text.toUTF8.data.toList := rfl
  have hlines : ∀ line ∈ fileLines text, Enterable line := by decide +kernel
  have hload : (preload { json := true } read).failure = none := by decide +kernel
  obtain ⟨-, -, hstarted⟩ := preloading_is_typing hread hpreloading hfile hlines further
  obtain ⟨-, -, -, -, houtput⟩ := hstarted hload
  exact ⟨hread, hpreloading, hfile, hlines, by decide +kernel, houtput⟩

end Backchain.Shell
