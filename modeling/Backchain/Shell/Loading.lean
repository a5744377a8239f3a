import Backchain.Reasoner
import Backchain.Shell.FileTree
import Backchain.Text.Lines

/-!
# Loading files

A file holds one clause a line. Lines that are empty once trimmed, or start with a percent sign,
are passed over. Loading stops at the first file that cannot be read and at the first line that is
no clause; lines are counted from one, those passed over included.
-/

namespace Backchain.Shell

inductive LoadFailure where
  | unreadable (path : String) (cause : ReadFailure)
  | malformed (path : String) (line : Nat) (cause : Error)
deriving DecidableEq

namespace LoadFailure

def context : LoadFailure → String
  | .unreadable path _ => "failed to read '" ++ path ++ "'"
  | .malformed path line _ => path ++ ":" ++ toString line

def cause : LoadFailure → String
  | .unreadable _ cause => cause.message
  | .malformed _ _ cause => cause.message

end LoadFailure

/-- How far loading has come: the reasoner so far, and what stopped it, if anything did. -/
structure Loading where
  reasoner : Reasoner
  log : List LogEntry
  failure : Option LoadFailure

namespace Loading

def after (earlier : List LogEntry) (loading : Loading) : Loading :=
  { loading with log := earlier ++ loading.log }

/-- Goes on from the reasoner that was reached, unless something stopped it. -/
def andThen (loading : Loading) (next : Reasoner → Loading) : Loading :=
  match loading.failure with
  | some _ => loading
  | none => (next loading.reasoner).after loading.log

end Loading

def isPassedOver (line : String) : Bool := line == "" || line.toList.head? == some '%'

/-- Adds the clauses of lines, of which the first has the number `number`. -/
def loadLines (path : String) (reasoner : Reasoner) : (number : Nat) → List String → Loading
  | _, [] => ⟨reasoner, [], none⟩
  | number, line :: rest =>
    let line := Text.trim line
    if isPassedOver line then loadLines path reasoner (number + 1) rest
    else match reasoner.tellText line with
      | .error cause => ⟨reasoner, [], some (.malformed path number cause)⟩
      | .ok (_, added) =>
        (loadLines path added.value (number + 1) rest).after (added.log.map Event.entry)

def loadText (path text : String) (reasoner : Reasoner) : Loading :=
  loadLines path reasoner 1 ((Text.lines '\n' text.toList).map String.ofList)

def textOf (content : Content) : Except ReadFailure String := do
  match Text.decode? (← content) with
  | some text => .ok text
  | none => .error .notUtf8

def loadFile (path : String) (content : Content) (reasoner : Reasoner) : Loading :=
  Loading.after [⟨.debug, "microprolog", "loading clauses from '" ++ path ++ "'"⟩] <|
    match textOf content with
    | .error cause => ⟨reasoner, [], some (.unreadable path cause)⟩
    | .ok text =>
      (loadText path text reasoner).andThen fun reasoner =>
        let loaded := "loaded '" ++ path ++ "': " ++ toString reasoner.facts.length ++
          " fact(s), " ++ toString reasoner.rules.length ++ " rule(s) in total"
        ⟨reasoner, [⟨.info, "microprolog", loaded⟩], none⟩

def loadFiles (files : List (String × Content)) (reasoner : Reasoner) : Loading :=
  match files with
  | [] => ⟨reasoner, [], none⟩
  | (path, content) :: rest => (loadFile path content reasoner).andThen (loadFiles rest)

end Backchain.Shell
