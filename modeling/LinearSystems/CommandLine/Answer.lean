import LinearSystems.CommandLine.Options
import LinearSystems.LinearSystem
import LinearSystems.Rendering

/-!
# Answers of the command line

What a run of the program prints, given its arguments and what the file, or else the
standard input, holds.
-/

namespace LinearSystems.CommandLine

/-- What a run comes to. -/
inductive Answer where
  /-- The arguments are wrong. -/
  | misused
  /-- The equations could not be read or not be solved. -/
  | unsolved
  /-- A step had no result. -/
  | aborted
  | solved (line : String)
deriving DecidableEq

namespace Answer

def exitCode : Answer → Nat
  | solved _ => 0
  | unsolved => 1
  | misused => 2
  | aborted => 101

/-- The text for the standard output. -/
def output : Answer → String
  | solved line => line ++ "\n"
  | _ => ""

/-- The last line for the error output, if there is any. -/
def complaint? : Answer → Option String
  | solved _ => none
  | unsolved => some "The equations could not be solved."
  | aborted => some "The solution could not be written."
  | misused => some
      "usage: [-d] [-p N] [-m] [-v] [--strict] [--no-least-squares] [EQUATIONS_FILE]"

end Answer

/-- The name of the standard input in messages. -/
def standardInput : String := "<stdin>"

namespace Options

/-- The line that tells a solution. -/
def describe (o : Options) (s : Solution) : Except Fault String :=
  let body := if o.markup then s.markup o.style else (s.text o.style).map String.ofList
  body.map ((if s.isApproximate then "Approximate solution: " else "Solution: ") ++ ·)

/-- The answer for what the file or the standard input holds. -/
def answer (o : Options) (content : Except String ByteArray) : Answer :=
  match Input.ofFile (o.file.getD standardInput) content with
  | .error _ => .unsolved
  | .ok input =>
    match input.solve o.settings with
    | .error (.error _) => .unsolved
    | .error (.fault _) => .aborted
    | .ok s =>
      match o.describe s with
      | .ok line => .solved line
      | .error _ => .aborted

end Options

end LinearSystems.CommandLine
