import Kaleidoscope.Console

/-!
# The executable
-/

namespace Kaleidoscope.Console

/-- More steps than any run can take. -/
def steps : Nat := Nat.pow 2 62

/-- Write texts to the standard streams. -/
def Write.perform : Write → IO Unit
  | .out text => do
    IO.print text
    (← IO.getStdout).flush
  | .err text => IO.eprint text

/-- Write what the command writes. -/
def Ending.perform (e : Ending) : IO UInt32 := do
  e.writes.forM Write.perform
  return e.code.toUInt32

/-- What a system error says, with its number. The system may hand the number over negated. -/
def systemError (code : UInt32) (details : String) : String :=
  let number := min code.toNat (0 - code).toNat
  let text := match number with
    | 2 => "No such file or directory"
    | 13 => "Permission denied"
    | 20 => "Not a directory"
    | 21 => "Is a directory"
    | 36 => "File name too long"
    | _ => details
  s!"{text} (os error {number})"

/-- Why a file cannot be read. -/
def reason : IO.Error → String
  | .noFileOrDirectory _ code details | .permissionDenied _ code details
  | .inappropriateType _ code details | .invalidArgument _ code details
  | .resourceExhausted _ code details => systemError code details
  | e => toString e

/-- Read a file, or the reason why it cannot be read. -/
def readSource (path : String) : IO (Except String String) := do
  try
    return .ok (← IO.FS.readFile path)
  catch e => return .error (reason e)

/-- Ask for lines and answer them until the input ends. -/
partial def Dialogue.talk (d : Dialogue) (input : IO.FS.Stream) : IO UInt32 := do
  (Write.out d.prompt).perform
  let line ← input.getLine
  if line.isEmpty then
    match d.close steps with
    | some shown => Ending.perform ⟨shown, 0⟩
    | none => return 1
  else
    match d.feed steps line.toList with
    | some (shown, next) =>
      shown.forM Write.perform
      next.talk input
    | none => return 1

/-- Say what a finished command writes. One that does not finish within its steps fails. -/
def conclude : Option Ending → IO UInt32
  | some ending => ending.perform
  | none => return 1

/-- Do what the arguments ask for. -/
def serve (arguments : List String) : IO UInt32 := do
  match command arguments with
  | .run options none => (Dialogue.start options).talk (← IO.getStdin)
  | .run _ (some path) =>
    let contents ← readSource path
    conclude (perform steps arguments (fun _ => contents) "")
  | _ => conclude (perform steps arguments (fun _ => .error "") "")

end Kaleidoscope.Console

/-- Run the command. -/
def main (arguments : List String) : IO UInt32 := Kaleidoscope.Console.serve arguments
