import Backchain.Shell.Run

/-!
# The program

Reads the arguments, the files and standard input, one line at a time, and writes what the shell
says. All decisions are those of `Shell.start` and `Shell.takeTurn`.
-/

namespace Backchain.Shell

def ReadFailure.ofError : IO.Error → ReadFailure
  | .noFileOrDirectory .. => notFound
  | .inappropriateType _ code _ => if code = 21 then isADirectory else notADirectory
  | .permissionDenied .. => .system "Permission denied" 13
  | .invalidArgument .. => nameTooLong
  | error => .system error.toString 0

def readContent (path : String) : IO Content := do
  try return .ok (← IO.FS.readBinFile path).toList
  catch error => return .error (.ofError error)

/-- The bytes up to the next line feed, which is dropped, or nothing at the end of the input. -/
partial def readLine? (input : IO.FS.Stream) : IO (Option (List UInt8)) := do
  let rec go (line : ByteArray) : IO (Option (List UInt8)) := do
    match (← input.read 1).toList with
    | [] => return if line.isEmpty then none else some line.toList
    | byte :: _ => if byte = 10 then return some line.toList else go (line.push byte)
  go .empty

partial def talk (options : Options) (reasoner : Reasoner) (input output : IO.FS.Stream) :
    IO UInt32 := do
  output.putStr prompt
  output.flush
  match ← readLine? input with
  | none => return 0
  | some line =>
    let turn := takeTurn options.json reasoner line
    IO.eprint (shownLog options (turn.reply.log.map Event.entry))
    output.putStr turn.reply.text
    match turn.ending with
    | none => talk options turn.reasoner input output
    | some ending =>
      IO.eprint ending.report
      return ending.status.toUInt32

def runProgram (arguments : List String) : IO UInt32 := do
  match Options.read arguments with
  | .error stop =>
    IO.print stop.report.output
    IO.eprint stop.report.errors
    return stop.report.status.toUInt32
  | .ok options =>
    let files ← options.paths.mapM fun path => return (path, ← readContent path)
    let loading := start options files
    IO.eprint (shownLog options loading.log)
    match loading.failure with
    | some failure =>
      IO.eprint failure.report
      return 1
    | none => talk options loading.reasoner (← IO.getStdin) (← IO.getStdout)

end Backchain.Shell

def main (arguments : List String) : IO UInt32 := Backchain.Shell.runProgram arguments
