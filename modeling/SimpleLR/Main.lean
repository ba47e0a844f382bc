import SimpleLR.Command.Session

/-!
# The command

Connects a session to the arguments, the files and the standard streams.
-/

namespace SimpleLR.Command

/-- The reason that the system gives for refusing a file. -/
def FileError.ofError (path : String) : IO.Error → FileError
  | .noFileOrDirectory .. => .notFound
  | .permissionDenied .. => .permissionDenied
  | .inappropriateType _ code _ => if code = 21 then .isDirectory else .notDirectory
  | .invalidArgument .. =>
    if path.toList.any (·.toNat = 0) then .invalidPath else .nameTooLong
  | e => .other (toString e)

/-- Reads the bytes of a file. -/
def contentsOf (path : String) : BaseIO (Except FileError ByteArray) := do
  match ← (IO.FS.readBinFile path).toBaseIO with
  | .ok bytes => pure (.ok bytes)
  | .error e => pure (.error (.ofError path e))

/-- Reads one line of the standard input. -/
def readLine (input : IO.FS.Stream) : IO Line := do
  let mut bytes := ByteArray.empty
  repeat
    let more ← input.read 1
    if more.isEmpty then
      return if bytes.isEmpty then .closed else .ofBytes bytes
    if more.data == #[10] then return .ofBytes bytes
    bytes := bytes ++ more
  return .closed

/-- Prints a text at once. -/
def printNow (text : String) : IO Unit := do
  let output ← IO.getStdout
  output.putStr text
  output.flush

/-- Reports a failure; gives the exit code. -/
def fail (r : Report) : IO UInt32 := do
  (← IO.getStderr).putStr r.render
  pure 1

/-- Replies to the lines of the standard input until a reply ends the session. -/
def converseNow (a : Automaton) (input : IO.FS.Stream) : IO UInt32 := do
  repeat
    printNow linePrompt
    match reply a (← readLine input) with
    | .print text => printNow text
    | .stop none => return 0
    | .stop (some r) => return ← fail r
  return 0

/-- Runs a session by the grammar at a path. -/
def sessionNow (dump : Bool) (path : String) (input : IO.FS.Stream) : IO UInt32 := do
  let (text, result) := openGrammar dump path (← contentsOf path)
  printNow text
  match result with
  | .ok a => converseNow a input
  | .error r => fail r

end SimpleLR.Command

open SimpleLR.Command in
/-- Runs the command. -/
def main (args : List String) : IO UInt32 := do
  let input ← IO.getStdin
  match Request.ofArguments args with
  | none =>
    (← IO.getStderr).putStr usage
    pure 2
  | some .help =>
    printNow usage
    pure 0
  | some .version =>
    printNow versionText
    pure 0
  | some (.recognize dump (some path)) => sessionNow dump path input
  | some (.recognize dump none) =>
    printNow pathPrompt
    match ← readLine input with
    | .invalid => fail .unreadablePath
    | .closed => sessionNow dump "" input
    | .text s => sessionNow dump (String.ofList (SimpleLR.Text.trim s.toList)) input
