import Backchain.Proofs.Shell.Loading
import Backchain.Proofs.Shell.Preloading

/-!
# The first line that is refused

To load files is to tell their clauses, file by file and line by line, up to the first line that is
neither passed over nor a clause. The failure tells where this line stands: in which file, and at
which place among all lines of that file. Its cause is the line itself, without the white space
around it.
-/

namespace Backchain.Shell

theorem exists_first_not {α : Type} {p : α → Prop} {items : List α}
    (h : ¬ ∀ item ∈ items, p item) :
    ∃ earlier item later, items = earlier ++ item :: later ∧ (∀ e ∈ earlier, p e) ∧ ¬ p item := by
  induction items with
  | nil => exact absurd (by simp) h
  | cons first items ih =>
    by_cases hfirst : p first
    · obtain ⟨earlier, item, later, rfl, hearlier, hitem⟩ :=
        ih fun hitems => h (List.forall_mem_cons.2 ⟨hfirst, hitems⟩)
      exact ⟨first :: earlier, item, later, rfl, List.forall_mem_cons.2 ⟨hfirst, hearlier⟩, hitem⟩
    · exact ⟨[], first, items, rfl, by simp, hfirst⟩

theorem loadable_iff {line : String} :
    Loadable line ↔
      Text.trim line = "" ∨ (Text.trim line).toList.head? = some '%' ∨
        ∃ clause, Clause.read (Text.trim line) = .ok clause := by
  simp [Loadable, isPassedOver, or_assoc, Option.isSome_iff_exists, clauseOn?_eq_some_iff]

-- ---------------------------------------------------------------------------
-- The lines of one file
-- ---------------------------------------------------------------------------

def clausesOf (text : String) : List Clause := (fileLines text).filterMap clauseOn?

section Lines

variable {earlier : List String} {line : String} (path : String) (reasoner : Reasoner)
  (number : Nat)

theorem loadLines_append (lines others : List String) :
    loadLines path reasoner number (lines ++ others) =
      (loadLines path reasoner number lines).andThen fun reached =>
        loadLines path reached (number + lines.length) others := by
  induction lines generalizing reasoner number with
  | nil => rfl
  | cons line lines ih =>
    have hnumber : number + (line :: lines).length = number + 1 + lines.length := by
      rw [List.length_cons]
      omega
    rw [List.cons_append, loadLines, loadLines, hnumber]
    split
    · exact ih reasoner (number + 1)
    · cases reasoner.tellText (Text.trim line) with
      | error cause => rfl
      | ok told => rw [Loading.after_andThen, ← ih]

theorem loadLines_of_not_loadable (hline : ¬ Loadable line) (later : List String) :
    loadLines path reasoner number (line :: later) =
      ⟨reasoner, [], some (.malformed path number (.malformedTerm (Text.trim line)))⟩ := by
  obtain ⟨hpassed, hclause⟩ := not_or.1 hline
  have hread : Clause.read (Text.trim line) = .error (.malformedTerm (Text.trim line)) := by
    cases hread : Clause.read (Text.trim line) with
    | ok clause => exact absurd (by simp [clauseOn?_eq_some_iff.2 hread]) hclause
    | error e => rw [(Clause.read_eq_error_iff.1 hread).2, Text.trim_trim]
  have htell : reasoner.tellText (Text.trim line) =
      .error (.malformedTerm (Text.trim line)) := by
    rw [Reasoner.tellText, hread]
    rfl
  simp only [loadLines, if_neg hpassed, htell]

theorem loadLines_refused (hearlier : ∀ e ∈ earlier, Loadable e) (hline : ¬ Loadable line)
    (later : List String) :
    ∃ log, loadLines path reasoner number (earlier ++ line :: later) =
      ⟨reasoner.tellAll (earlier.filterMap clauseOn?), log,
        some (.malformed path (number + earlier.length) (.malformedTerm (Text.trim line)))⟩ := by
  obtain ⟨log, hload⟩ := loadLines_eq hearlier path reasoner number
  rw [loadLines_append, hload]
  exact ⟨_, congrArg (Loading.after log) (loadLines_of_not_loadable path _ _ hline later)⟩

theorem loadFile_refused {text : String} {later : List String}
    (hlines : fileLines text = earlier ++ line :: later) (hearlier : ∀ e ∈ earlier, Loadable e)
    (hline : ¬ Loadable line) :
    ∃ log, loadFile path (.ok text.toUTF8.data.toList) reasoner =
      ⟨reasoner.tellAll (earlier.filterMap clauseOn?), log,
        some (.malformed path (earlier.length + 1) (.malformedTerm (Text.trim line)))⟩ := by
  obtain ⟨log, hload⟩ := loadLines_refused path reasoner 1 hearlier hline later
  rw [Nat.add_comm] at hload
  simp only [loadFile, textOf_encoded, loadText_eq, hlines, hload]
  exact ⟨_, rfl⟩

end Lines

-- ---------------------------------------------------------------------------
-- File by file
-- ---------------------------------------------------------------------------

theorem loadableContent_encoded {text : String} :
    LoadableContent (.ok text.toUTF8.data.toList) ↔ ∀ line ∈ fileLines text, Loadable line := by
  rw [loadableContent_iff, textOf_encoded]
  simp

def encodedFiles (files : List (String × String)) : List (String × Content) :=
  files.map fun (path, text) => (path, .ok text.toUTF8.data.toList)

/-- Of the lines of all files, in order, the line after `earlier` in the file after `before` is the
first that cannot be loaded. -/
structure FirstRefused (files before : List (String × String)) (path : String)
    (earlier : List String) (line : String) : Prop where
  split : ∃ text after later, files = before ++ (path, text) :: after ∧
    fileLines text = earlier ++ line :: later
  before_loadable : ∀ file ∈ before, ∀ l ∈ fileLines file.2, Loadable l
  earlier_loadable : ∀ l ∈ earlier, Loadable l
  not_loadable : ¬ Loadable line

section Files

variable {files before : List (String × String)} {path : String} {earlier : List String}
  {line : String} (reasoner : Reasoner)

theorem exists_firstRefused (h : ¬ ∀ file ∈ files, ∀ l ∈ fileLines file.2, Loadable l) :
    ∃ before path earlier line, FirstRefused files before path earlier line := by
  obtain ⟨before, ⟨path, text⟩, after, hfiles, hbefore, hfile⟩ := exists_first_not h
  obtain ⟨earlier, line, later, hlines, hearlier, hline⟩ := exists_first_not hfile
  exact ⟨before, path, earlier, line, ⟨text, after, later, hfiles, hlines⟩, hbefore, hearlier,
    hline⟩

theorem loadFiles_encodedFiles (h : ∀ file ∈ files, ∀ l ∈ fileLines file.2, Loadable l) :
    ∃ log, loadFiles (encodedFiles files) reasoner =
      ⟨reasoner.tellAll (files.flatMap fun file => clausesOf file.2), log, none⟩ := by
  induction files generalizing reasoner with
  | nil => exact ⟨[], rfl⟩
  | cons file files ih =>
    obtain ⟨path, text⟩ := file
    obtain ⟨hfile, hfiles⟩ := List.forall_mem_cons.1 h
    obtain ⟨log, hload⟩ := loadFile_eq hfile path reasoner
    obtain ⟨rest, hrest⟩ := ih (reasoner.tellAll (clausesOf text)) hfiles
    refine ⟨log ++ rest, ?_⟩
    rw [encodedFiles, List.map_cons, loadFiles, hload, List.flatMap_cons, Reasoner.tellAll_append]
    exact congrArg (Loading.after log) hrest

theorem loadFiles_encodedFiles_failure_eq_none_iff {reasoner : Reasoner} :
    (loadFiles (encodedFiles files) reasoner).failure = none ↔
      ∀ file ∈ files, ∀ l ∈ fileLines file.2, Loadable l := by
  rw [loadFiles_failure_eq_none_iff, encodedFiles, List.forall_mem_map]
  simp only [loadableContent_encoded]

theorem FirstRefused.loadFiles_eq (h : FirstRefused files before path earlier line) :
    ∃ log, loadFiles (encodedFiles files) reasoner =
      ⟨reasoner.tellAll
          ((before.flatMap fun file => clausesOf file.2) ++ earlier.filterMap clauseOn?), log,
        some (.malformed path (earlier.length + 1) (.malformedTerm (Text.trim line)))⟩ := by
  obtain ⟨text, after, later, hfiles, hlines⟩ := h.split
  obtain ⟨log, hbefore⟩ := loadFiles_encodedFiles reasoner h.before_loadable
  obtain ⟨rest, hfile⟩ := loadFile_refused path
    (reasoner.tellAll (before.flatMap fun file => clausesOf file.2)) hlines h.earlier_loadable
    h.not_loadable
  refine ⟨log ++ rest, ?_⟩
  rw [hfiles, encodedFiles, List.map_append, loadFiles_append, ← encodedFiles, hbefore,
    List.map_cons, Reasoner.tellAll_append]
  simp only [loadFiles, hfile, Loading.andThen, Loading.after]

end Files

/-- Files are loaded without a failure exactly if each of their lines, once it is trimmed, is empty,
starts with a percent sign or is a clause. Then the reasoner holds what it held before, and after
that the clauses on the lines, in the order of files and lines. Otherwise loading fails at the first
line that is neither, and the clauses before it have been told. The failure names the path of the
file and the number of the line, which is one more than there are lines before it in its file, and
gives the line without the white space around it. -/
theorem loadFiles_takes_lines (reasoner : Reasoner) (files : List (String × String)) :
    let loading := loadFiles (encodedFiles files) reasoner
    let clauses := files.flatMap fun file => clausesOf file.2
    (loading.failure = none ↔
        ∀ file ∈ files, ∀ line ∈ fileLines file.2,
          Text.trim line = "" ∨ (Text.trim line).toList.head? = some '%' ∨
            ∃ clause, Clause.read (Text.trim line) = .ok clause) ∧
      (loading.failure = none →
        loading.reasoner.facts = reasoner.facts ++ clauses.filterMap Clause.fact? ∧
          loading.reasoner.rules = reasoner.rules ++ clauses.filterMap Clause.rule? ∧
          loading.reasoner.settings = reasoner.settings) ∧
      (∀ failure, loading.failure = some failure ↔
        ∃ before path earlier line, FirstRefused files before path earlier line ∧
          failure = .malformed path (earlier.length + 1) (.malformedTerm (Text.trim line)) ∧
          failure.context = path ++ ":" ++ toString (earlier.length + 1) ∧
          failure.cause = (Error.malformedTerm (Text.trim line)).message) ∧
      ∀ before path earlier line, FirstRefused files before path earlier line →
        loading.reasoner = reasoner.tellAll
          ((before.flatMap fun file => clausesOf file.2) ++ earlier.filterMap clauseOn?) := by
  intro loading clauses
  have hstops : ∀ {before path earlier line}, FirstRefused files before path earlier line →
      loading.reasoner = reasoner.tellAll
          ((before.flatMap fun file => clausesOf file.2) ++ earlier.filterMap clauseOn?) ∧
        loading.failure =
          some (.malformed path (earlier.length + 1) (.malformedTerm (Text.trim line))) := by
    intro before path earlier line hfirst
    obtain ⟨log, hload⟩ := hfirst.loadFiles_eq reasoner
    rw [show loading = _ from hload]
    exact ⟨rfl, rfl⟩
  refine ⟨?_, ?_, fun failure => ⟨?_, ?_⟩, fun _ _ _ _ hfirst => (hstops hfirst).1⟩
  · simpa only [loadable_iff] using loadFiles_encodedFiles_failure_eq_none_iff
  · intro hloaded
    obtain ⟨log, hload⟩ :=
      loadFiles_encodedFiles reasoner (loadFiles_encodedFiles_failure_eq_none_iff.1 hloaded)
    rw [show loading = _ from hload, Reasoner.tellAll, KnowledgeBase.addAll_eq]
    exact ⟨rfl, rfl, rfl⟩
  · intro hfailed
    have hsome : loading.failure ≠ none := hfailed ▸ Option.some_ne_none failure
    obtain ⟨before, path, earlier, line, hfirst⟩ :=
      exists_firstRefused (mt loadFiles_encodedFiles_failure_eq_none_iff.2 hsome)
    obtain rfl := Option.some.inj (hfailed.symm.trans (hstops hfirst).2)
    exact ⟨before, path, earlier, line, hfirst, rfl, rfl, rfl⟩
  · rintro ⟨before, path, earlier, line, hfirst, rfl, -, -⟩
    exact (hstops hfirst).2

theorem loadFiles_takes_lines_of_cats :
    let cats := ("cats", "% cats\r\ncat(tom).")
    let misspelt := ("misspelt", "\n% owners\n\towns(ana tom)\r\nowns(")
    let owners := ("owners", "\n\u00a0owns(ana, X) :- cat(X)")
    let loading := loadFiles (encodedFiles [cats, owners]) {}
    let failing := loadFiles (encodedFiles [cats, misspelt, owners]) {}
    (loading.failure = none ∧ loading.reasoner.facts.map Term.render = ["cat(tom)"] ∧
        loading.reasoner.rules.map Rule.render = ["owns(ana, X) :- cat(X)"]) ∧
      failing.failure = some (.malformed "misspelt" 3 (.malformedTerm "owns(ana tom)")) ∧
      failing.reasoner.facts.map Term.render = ["cat(tom)"] := by
  intro cats misspelt owners loading failing
  have hlines : ∀ file ∈ [cats, owners], ∀ line ∈ fileLines file.2, Loadable line := by
    decide +kernel
  have hfirst : FirstRefused [cats, misspelt, owners] [cats] "misspelt" ["", "% owners"]
      "\towns(ana tom)" :=
    ⟨⟨misspelt.2, [owners], ["owns("], rfl, by decide +kernel⟩, by decide +kernel,
      by decide +kernel, by decide +kernel⟩
  obtain ⟨hloads, hholds, -⟩ := loadFiles_takes_lines {} [cats, owners]
  obtain ⟨-, -, hfails, hheld⟩ := loadFiles_takes_lines {} [cats, misspelt, owners]
  have hloaded : loading.failure = none := hloads.2 (by simpa only [loadable_iff] using hlines)
  obtain ⟨hfacts, hrules, -⟩ := hholds hloaded
  have htrim : Text.trim "\towns(ana tom)" = "owns(ana tom)" := by decide +kernel
  refine ⟨⟨hloaded, ?_, ?_⟩, ?_, ?_⟩
  · rw [hfacts]
    decide +kernel
  · rw [hrules]
    decide +kernel
  · rw [← htrim]
    exact (hfails _).2 ⟨_, _, _, _, hfirst, rfl, rfl, rfl⟩
  · rw [hheld _ _ _ _ hfirst]
    decide +kernel

end Backchain.Shell
