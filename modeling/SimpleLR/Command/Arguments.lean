/-!
# Arguments of the command

The command takes the switch `--dump` and the path of a grammar file, in any order. What comes
after `--` is a path even if it starts with a dash, and a dash alone is a path too. How arguments
make a request is only an imitation of a library for reading arguments, as far as these two go. So
what is proved of the command holds for every request, whatever the arguments that make it.
-/

namespace SimpleLR.Command

/-- What the command is asked to do. -/
inductive Request where
  /-- Recognize the lines of the input, by the grammar at a path if one is given. -/
  | recognize (dump : Bool) (path : Option String)
  /-- Describe the command. -/
  | help
  /-- Name the command and its version. -/
  | version
deriving DecidableEq, Repr

/-- Reads the arguments after `--`. -/
def readPaths (dump : Bool) : Option String → List String → Option Request
  | path, [] => some (.recognize dump path)
  | path, arg :: args =>
    if arg.isEmpty || path.isSome then none else readPaths dump (some arg) args

/-- Reads arguments, after a switch and a path that may have been met; none if they are wrong. -/
def readArguments (dump : Bool) (path : Option String) : List String → Option Request
  | [] => some (.recognize dump path)
  | arg :: args =>
    if arg = "--" then readPaths dump path args
    else if arg = "--dump" then if dump then none else readArguments true path args
    else if arg = "--help" || arg.startsWith "-h" then some .help
    else if arg = "--version" || arg.startsWith "-V" then some .version
    else if arg.startsWith "-" && arg != "-" then none
    else if arg.isEmpty || path.isSome then none
    else readArguments dump (some arg) args

/-- The request that some arguments make, none if they are wrong. -/
def Request.ofArguments (args : List String) : Option Request := readArguments false none args

end SimpleLR.Command
