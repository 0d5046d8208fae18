import ChipEight.Journal
import ChipEight.Launch

/-!
# The command

Reads the program that the command line names.  Without a usable command line or a readable file the reason goes to the
error output and the command fails.
-/

namespace ChipEight

/-- The number of the error behind a failure to open or read a file; it may come negated. -/
def errorNumber? : IO.Error → Option UInt32
  | .noFileOrDirectory _ n _ | .inappropriateType _ n _ | .invalidArgument _ n _ | .noSuchThing _ n _ => some n
  | .hardwareFault n _ | .otherError n _ => some n
  | _ => none

/-- The error of the system behind a failure to open or read a file. -/
def systemError? (e : IO.Error) : Option SystemError :=
  (errorNumber? e).bind fun n => SystemError.ofCode? n.toInt32.toInt.natAbs

/-- Reads a file; errors of the system that have no name here are left to the caller. -/
def readProgram (path : String) : IO (Except SystemError (List UInt8)) := do
  try
    return .ok (← IO.FS.readBinFile path).toList
  catch e =>
    match systemError? e with
    | some e => return .error e
    | none => throw e

/-- Reads the program and notes its size. -/
def launch (args : List String) : IO UInt32 := do
  match ← Launch.fetch readProgram args with
  | .error f =>
    IO.eprintln f.report
    return 1
  | .ok (r, program) =>
    IO.eprintln (Note.programRead r.path program.length).text
    return 0

end ChipEight

def main (args : List String) : IO UInt32 := ChipEight.launch args
