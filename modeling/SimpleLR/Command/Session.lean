import SimpleLR.Command.Arguments
import SimpleLR.Grammar.Load
import SimpleLR.Automaton.Recognizer
import SimpleLR.Text.Quoted

/-!
# Sessions of the command

A session loads a grammar, warns of nonterminals without rules, builds the automaton, and then
answers line by line: with the derivation of the line, or with the remark that it does not belong
to the language. A blank line or the end of the input ends it. All texts are decided here; files
and standard streams are left to the caller. The layout of reports, the usage and the version are
imitations of what libraries print: the layout agrees with theirs on the reports made here, and the
words of the usage and of the version are of this library alone.
-/

namespace SimpleLR.Command

/-! ## Reports -/

/-- The reasons for which a file cannot be read as text. -/
inductive FileError where
  | notFound
  | permissionDenied
  | notDirectory
  | isDirectory
  | nameTooLong
  /-- The path holds a NUL, so the system cannot be asked for it. -/
  | invalidPath
  /-- The bytes are not UTF-8. -/
  | invalidText
  /-- Anything else that the system says. -/
  | other (description : String)
deriving DecidableEq, Repr

/-- The text of a file error, with the number that the system gives it. -/
def FileError.message : FileError → String
  | .notFound => "No such file or directory (os error 2)"
  | .permissionDenied => "Permission denied (os error 13)"
  | .notDirectory => "Not a directory (os error 20)"
  | .isDirectory => "Is a directory (os error 21)"
  | .nameTooLong => "File name too long (os error 36)"
  | .invalidPath => "file name contained an unexpected NUL byte"
  | .invalidText => "stream did not contain valid UTF-8"
  | .other description => description

/-- A failure: what was being done, and why it failed, each reason followed by its own. -/
structure Report where
  context : String
  causes : List String
deriving DecidableEq, Repr

/-- The text of a report; several causes are numbered. A layout imitated for the reports made here,
which all have a cause of one line or two such causes. -/
def Report.render (r : Report) : String :=
  let causes : List String :=
    match r.causes with
    | [cause] => ["    " ++ cause ++ "\n"]
    | causes => causes.mapIdx fun i cause => "    " ++ toString i ++ ": " ++ cause ++ "\n"
  "Error: " ++ r.context ++ "\n\nCaused by:\n" ++ String.join causes

/-- What is reported when the path of the grammar cannot be read. -/
def Report.unreadablePath : Report :=
  ⟨"failed to read the grammar file path", [FileError.invalidText.message]⟩

/-- What is reported when a line of the input cannot be read. -/
def Report.unreadableLine : Report := ⟨"failed to read the input", [FileError.invalidText.message]⟩

/-- Why a grammar could not be loaded. -/
def loadCauses : GrammarError → List String
  | .description e => [(GrammarError.description e).message, e.message]
  | e => [e.message]

/-! ## Starting -/

/-- Asks for the path of the grammar. -/
def pathPrompt : String := "grammar file: "

/-- Asks for a line. -/
def linePrompt : String := "> "

/-- The grammar in the contents of a file. -/
def loadGrammar (path : String) (contents : Except FileError ByteArray) :
    Except Report Grammar := do
  let context := "errored during loading " ++ path
  let ioCause (e : FileError) : Report := ⟨context, ["IO error: " ++ e.message]⟩
  let bytes ← contents.mapError ioCause
  match String.fromUTF8? bytes with
  | none => throw (ioCause .invalidText)
  | some text => (Grammar.ofText text).mapError fun e => ⟨context, loadCauses e⟩

/-- Warns of nonterminals without rules. -/
def warning (g : Grammar) : String :=
  let names := (g.nonterminalList.filter fun n => (g.rulesFor n).isEmpty).map g.nonterminalName
  if names.isEmpty then ""
  else "[warning] The following nonterminals have no associated production rule: " ++
    Text.quoteAll names ++ "\n"

/-- Shows a grammar, its FIRST and FOLLOW sets and its automaton. -/
def dumped (a : Automaton) : String :=
  a.grammar.render ++ "\n" ++
  (FirstFollow.ofGrammar a.grammar).render a.grammar ++ "\n" ++
  a.render ++ "\n"

/-- What is printed before the first line is read, and the automaton unless loading failed. -/
def openGrammar (dump : Bool) (path : String) (contents : Except FileError ByteArray) :
    String × Except Report Automaton :=
  match loadGrammar path contents with
  | .error r => ("", .error r)
  | .ok g =>
    match Automaton.build g with
    | .error e => (warning g, .error ⟨"errored during building " ++ path, [e.message g]⟩)
    | .ok a => (warning g ++ if dump then dumped a else "", .ok a)

/-! ## Answering -/

/-- The number of events after which a line is given up, more than can be waited for. Recognition
has no limit of its own: where reductions go on for ever, as they do on `acy` by `S -> aAU`,
`A -> A`, `A -> c` and `Z -> Ay`, it never ends. -/
def eventLimit : Nat := 0x10000000000000000

/-- What reading a line has given. -/
inductive Line where
  | text (s : String)
  | invalid
  | closed
deriving DecidableEq, Repr

/-- A line from its bytes. -/
def Line.ofBytes (bytes : ByteArray) : Line :=
  match String.fromUTF8? bytes with
  | some s => .text s
  | none => .invalid

/-- What is done about a line. -/
inductive Reply where
  /-- Print a text and go on. -/
  | print (text : String)
  /-- Stop, because of a failure if there is one. -/
  | stop (failure : Option Report)
deriving DecidableEq, Repr

/-- Answers a text without blanks at its ends. Where recognition never ends there is no answer, to
this line or a later one; the report of too many events stands for that here. -/
def answer (a : Automaton) (text : String) : Reply :=
  match a.parseString eventLimit text with
  | some (.ok d) => .print (d.render a.grammar)
  | some (.error e) =>
    if e.isRejection then .print ("`" ++ text ++ "' is not a member of the language\n")
    else .stop (some ⟨"the parser is in an inconsistent state",
      [e.message Automaton.unknownSymbol]⟩)
  | none => .stop (some ⟨"the parser does not come to an end", ["too many events"]⟩)

/-- Replies to a line. -/
def reply (a : Automaton) : Line → Reply
  | .closed => .stop none
  | .invalid => .stop (some .unreadableLine)
  | .text s =>
    let text := String.ofList (Text.trim s.toList)
    if text.isEmpty then .stop none else answer a text

/-! ## Whole runs -/

/-- How a run of the command ends. -/
structure Outcome where
  code : Nat
  stdout : String
  stderr : String
deriving DecidableEq, Repr

/-- The outcome of a run that printed a text and then met no failure, or one. -/
def Outcome.ofReport (stdout : String) : Option Report → Outcome
  | none => ⟨0, stdout, ""⟩
  | some r => ⟨1, stdout, r.render⟩

/-- Replies to one line after another. -/
def converse (a : Automaton) (printed : String) : List Line → Outcome
  | [] => .ofReport (printed ++ linePrompt) none
  | l :: ls =>
    match reply a l with
    | .print text => converse a (printed ++ linePrompt ++ text) ls
    | .stop failure => .ofReport (printed ++ linePrompt) failure

/-- Runs a session by the grammar at a path. -/
def session (readFile : String → Except FileError ByteArray) (dump : Bool) (path : String)
    (printed : String) (ls : List Line) : Outcome :=
  match openGrammar dump path (readFile path) with
  | (text, .error r) => .ofReport (printed ++ text) (some r)
  | (text, .ok a) => converse a (printed ++ text) ls

/-- The lines of some bytes. -/
def linesOf (bytes : ByteArray) : List Line :=
  (Text.lines 10 bytes.toList).map fun l => .ofBytes ⟨l.toArray⟩

/-- How the command is used, in words of this library. -/
def usage : String :=
  "Usage: simplelr [--dump] [GRAMMAR]\n\n" ++
  "Reads a grammar and tells which lines of the input belong to its language.\n" ++
  "The path of the grammar is asked for if it is not given.\n\n" ++
  "  --dump     show the grammar, its FIRST and FOLLOW sets and its automaton\n" ++
  "  --help     show this text\n" ++
  "  --version  show the version\n"

/-- The name of the command and its version, made up here. -/
def versionText : String := "simplelr 0.1.0\n"

/-- Asks for the path of the grammar, then runs a session by it. -/
def askedSession (readFile : String → Except FileError ByteArray) (dump : Bool)
    (ls : List Line) : Outcome :=
  match ls.headD .closed with
  | .text s => session readFile dump (String.ofList (Text.trim s.toList)) pathPrompt ls.tail
  | .invalid => .ofReport pathPrompt (some .unreadablePath)
  | .closed => session readFile dump "" pathPrompt ls.tail

/-- Does what is requested, with a way to read files and the bytes of the input; without a request
it says how the command is used. -/
def respond (readFile : String → Except FileError ByteArray) (stdin : ByteArray) :
    Option Request → Outcome
  | none => ⟨2, "", usage⟩
  | some .help => ⟨0, usage, ""⟩
  | some .version => ⟨0, versionText, ""⟩
  | some (.recognize dump (some path)) => session readFile dump path "" (linesOf stdin)
  | some (.recognize dump none) => askedSession readFile dump (linesOf stdin)

/-- Runs the command on some arguments. -/
def run (readFile : String → Except FileError ByteArray) (args : List String)
    (stdin : ByteArray) : Outcome := respond readFile stdin (Request.ofArguments args)

end SimpleLR.Command
