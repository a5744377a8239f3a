import Backchain.Shell.Dialogue
import Backchain.Shell.Loading

/-!
# A run of the shell

From the arguments, the files and the input to the exit status and what is written. The files are
loaded before the first prompt. A failure is reported on the error stream after the log.
-/

namespace Backchain.Shell

structure Report where
  status : Nat
  output : String
  errors : String

def Report.errorLines (report : Report) : List String :=
  (Text.textLines report.errors.toList).map String.ofList

def versionText : String := "microprolog 0.1.0\n"

def helpText : String :=
  String.join <| List.map (· ++ "\n")
    ["Interactive backward-chaining resolution shell",
      "",
      "Usage: microprolog [OPTIONS] [PATHS]...",
      "",
      "Arguments:",
      "  [PATHS]...  Files with one clause per line, loaded before the prompt",
      "",
      "Options:",
      "      --max-depth <MAX_DEPTH>  Depth at which a sub-goal is abandoned, at most 1000 [default: 10]",
      "      --ignore-symbols         Unify terms by arity and arguments only, ignoring predicate symbols",
      "      --json                   Print query results as JSON",
      "  -v, --verbose                Log at debug level unless RUST_LOG says otherwise",
      "  -h, --help                   Print help",
      "  -V, --version                Print version"]

def Stop.report : Stop → Report
  | .version => ⟨0, versionText, ""⟩
  | .help => ⟨0, helpText, ""⟩
  | .rejected cause => ⟨2, "", "error: " ++ cause.message ++ "\n"⟩

def LoadFailure.report (failure : LoadFailure) : String :=
  "Error: " ++ failure.context ++ "\n\nCaused by:\n    " ++ failure.cause ++ "\n"

def openingLog (options : Options) : List LogEntry :=
  ⟨.info, "microprolog", "microprolog v0.1.0"⟩ ::
    match options.maxDepth with
    | some depth =>
      if depth > depthLimit then
        [⟨.warn, "microprolog", "--max-depth " ++ toString depth ++ " is above the limit, using " ++
          toString depthLimit⟩]
      else []
    | none => []

def start (options : Options) (files : List (String × Content)) : Loading :=
  (loadFiles files { settings := options.settings }).after (openingLog options)

def shownLog (options : Options) (log : List LogEntry) : String :=
  String.join ((log.filter fun entry => entry.level.shown options.verbose).map LogEntry.render)

def Ending.status : Ending → Nat
  | .endOfInput | .quit => 0
  | .notUtf8 => 1

def Ending.report : Ending → String
  | .endOfInput | .quit => ""
  | .notUtf8 => "Error: " ++ ReadFailure.notUtf8.message ++ "\n"

def runWith (options : Options) (files : List (String × Content)) (input : List UInt8) : Report :=
  let loading := start options files
  match loading.failure with
  | some failure => ⟨1, "", shownLog options loading.log ++ failure.report⟩
  | none =>
    let dialogue := converse options.json loading.reasoner (Text.lines 10 input)
    let log := loading.log ++ dialogue.log.map Event.entry
    ⟨dialogue.ending.status, dialogue.output, shownLog options log ++ dialogue.ending.report⟩

/-- Runs the shell with these arguments, where `read` reads the file at a path. -/
def run (arguments : List String) (read : String → Content) (input : List UInt8) : Report :=
  match Options.read arguments with
  | .error stop => stop.report
  | .ok options => runWith options (options.paths.map fun path => (path, read path)) input

end Backchain.Shell
