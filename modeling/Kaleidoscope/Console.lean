import Kaleidoscope.Session
import Kaleidoscope.Text.Blank

/-!
# The command line

With a file the command runs it and reports; without one it reads lines and runs what it has as
soon as a semicolon ends it. What is written is a list of texts for standard output and standard
error, in order.
-/

namespace Kaleidoscope.Console

/-- A text for one of the standard streams. -/
inductive Write where
  | out (text : String)
  | err (text : String)

/-- All that is written to standard output. -/
def standardOutput (writes : List Write) : String :=
  String.join (writes.map fun | .out text => text | .err _ => "")

/-- All that is written to standard error. -/
def standardError (writes : List Write) : String :=
  String.join (writes.map fun | .out _ => "" | .err text => text)

/-- Arguments that the command does not take. -/
inductive Misuse where
  | unexpected (argument : String)
  /-- An option is given a second time. -/
  | repeated (argument : String)

/-- How misuse is reported. -/
def Misuse.message : Misuse → String
  | unexpected argument => s!"unexpected argument '{argument}' found"
  | repeated argument => s!"the argument '{argument}' cannot be used multiple times"

/-- What the command is asked to do. -/
inductive Command where
  | help
  | version
  | run (options : Options) (file : Option String)
  | misuse (reason : Misuse)

/-- What an argument says before anything has ended the options. -/
inductive Argument where
  | help
  | version
  | list
  | withoutRun
  /-- No option follows. -/
  | endOfOptions
  /-- The argument has the form of an option, but there is none of that name. -/
  | unknown
  | file

/-- Read an argument. An option is a name behind two hyphens, or letters behind one. Each letter is
an option of its own, and since either of the two that there are settles the command at once, the
letters behind the first one do not matter. A hyphen alone is the name of a file. -/
def Argument.ofText (text : String) : Argument :=
  match text.toList with
  | '-' :: '-' :: name =>
    match String.ofList name with
    | "" => .endOfOptions
    | "help" => .help
    | "version" => .version
    | "emit-ir" => .list
    | "no-exec" => .withoutRun
    | _ => .unknown
  | '-' :: 'h' :: _ => .help
  | '-' :: 'V' :: _ => .version
  | '-' :: _ :: _ => .unknown
  | _ => .file

/-- Take the file's name from arguments among which there is no option. -/
def fileCommand (options : Options) (file : Option String) : List String → Command
  | [] => .run options file
  | argument :: rest =>
    match file with
    | none => fileCommand options (some argument) rest
    | some _ => .misuse (.unexpected argument)

/-- Read the arguments, given what the earlier ones said. The first one that asks for help or for
the version, or that is out of place, settles the command. -/
def commandFrom (options : Options) (file : Option String) : List String → Command
  | [] => .run options file
  | argument :: rest =>
    match Argument.ofText argument with
    | .help => .help
    | .version => .version
    | .list =>
      if options.list then .misuse (.repeated argument)
      else commandFrom { options with list := true } file rest
    | .withoutRun =>
      if options.execute then commandFrom { options with execute := false } file rest
      else .misuse (.repeated argument)
    | .endOfOptions => fileCommand options file rest
    | .unknown => .misuse (.unexpected argument)
    | .file =>
      match file with
      | none => commandFrom options (some argument) rest
      | some _ => .misuse (.unexpected argument)

/-- What the arguments ask for. -/
def command (arguments : List String) : Command := commandFrom .standard none arguments

/-- The name and the version of the command. -/
def versionText : String := "kaleido 0.1.0\n"

/-- The form of the arguments. -/
def usageText : String := "Usage: kaleido [OPTIONS] [FILE]\n"

/-- How the command is used. -/
def helpText : String :=
  "Compiles and runs Kaleidoscope programs\n" ++
  "\n" ++
  usageText ++
  "\n" ++
  "Arguments:\n" ++
  "  [FILE]  Program to run. Starts an interactive session when omitted\n" ++
  "\n" ++
  "Options:\n" ++
  "      --emit-ir  Print the IR of every generated function to stderr\n" ++
  "      --no-exec  Generate code without running top-level expressions\n" ++
  "  -h, --help     Print help\n" ++
  "  -V, --version  Print version\n"

/-- The session of the command. -/
def session (options : Options) : Session := .start options .standard

/-- How an outcome is shown. -/
def showOutcome : Outcome → Write
  | .evaluated value => .out s!"Evaluated to {Number.text value}\n"
  | .defined name => .err s!"defined {name}\n"
  | .declared name => .err s!"declared {name}\n"

/-- How a diagnostic of a source is shown. -/
def showDiagnostic (text : List Char) (d : Diagnostic) : Write :=
  let place := Source.place text d.span.start
  .err s!"error: {place.line}:{place.column}: {d.message}\n"

/-- What a statement writes while it runs. -/
def liveWrites (r : Report) : List Write :=
  .err r.listing :: r.natives.map fun call => .out call.output

/-- What running a source writes: first the statements themselves, then the outcomes, then the
diagnostics. -/
def writes (text : List Char) (reports : List (Located Report)) : List Write :=
  reports.flatMap (liveWrites ·.value) ++ (Report.outcomes reports).map showOutcome ++
    (Report.diagnostics reports).map (showDiagnostic text)

/-- What the command writes, and the code that it exits with. -/
structure Ending where
  writes : List Write
  code : Nat

/-- The file could not be read. -/
def unreadable (path reason : String) : Ending :=
  ⟨[.err s!"Error: Failed to read {path}\n\nCaused by:\n    {reason}\n"], 1⟩

/-- Run the contents of a file. The command fails if a statement failed. -/
def runFile (fuel : Nat) (options : Options) (path contents : String) : Option Ending := do
  let (reports, _) ← (session options).run fuel contents
  let shown := writes contents.toList reports
  match (Report.diagnostics reports).length with
  | 0 => return ⟨shown, 0⟩
  | failures => return ⟨shown ++ [.err s!"Error: {failures} statement(s) of {path} failed\n"], 1⟩

/-- An interactive session and the text that waits for its end. -/
structure Dialogue where
  session : Session
  buffer : List Char

namespace Dialogue

/-- A session with nothing read yet. -/
def start (options : Options) : Dialogue := ⟨Console.session options, []⟩

/-- What asks for the next line. -/
def prompt (d : Dialogue) : String := if Text.allBlank d.buffer then "ready> " else "...> "

/-- Run what is in the buffer. -/
def flush (d : Dialogue) (fuel : Nat) : Option (List Write × Dialogue) := do
  let (reports, session) ← d.session.run fuel (String.ofList d.buffer)
  return (writes d.buffer reports, ⟨session, []⟩)

/-- Take a line with its newline. If the last visible character so far is a semicolon, run what has
been read. -/
def feed (d : Dialogue) (fuel : Nat) (line : List Char) : Option (List Write × Dialogue) :=
  let d := { d with buffer := d.buffer ++ line }
  if Text.lastVisible? d.buffer = some ';' then d.flush fuel else some ([], d)

/-- At the end of the input, run what is left. -/
def close (d : Dialogue) (fuel : Nat) : Option (List Write) :=
  if Text.allBlank d.buffer then some [.out "\n"]
  else (d.flush fuel).map fun (shown, _) => shown ++ [.out "\n"]

/-- A whole dialogue over the given lines. -/
def converse (d : Dialogue) (fuel : Nat) : List (List Char) → Option (List Write)
  | [] => (d.close fuel).map (.out d.prompt :: ·)
  | line :: rest => do
    let (shown, next) ← d.feed fuel line
    let later ← converse next fuel rest
    return .out d.prompt :: shown ++ later

end Dialogue

/-- The lines of a text, each with its newline. -/
def lines : List Char → List (List Char)
  | [] => []
  | c :: rest =>
    if c = '\n' then [c] :: lines rest
    else
      match lines rest with
      | [] => [[c]]
      | line :: later => (c :: line) :: later

/-- What the command does with its arguments. `read` gives the contents of a file, or the reason why
there are none. -/
def perform (fuel : Nat) (arguments : List String) (read : String → Except String String)
    (input : String) : Option Ending :=
  match command arguments with
  | .help => some ⟨[.out helpText], 0⟩
  | .version => some ⟨[.out versionText], 0⟩
  | .misuse reason =>
    some ⟨[.err (s!"error: {reason.message}\n\n" ++ usageText ++
      "\nFor more information, try '--help'.\n")], 2⟩
  | .run options none =>
    ((Dialogue.start options).converse fuel (lines input.toList)).map fun shown => ⟨shown, 0⟩
  | .run options (some path) =>
    match read path with
    | .error reason => some (unreadable path reason)
    | .ok contents => runFile fuel options path contents

end Kaleidoscope.Console
