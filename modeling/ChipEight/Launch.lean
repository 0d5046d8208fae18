import ChipEight.Settings
import ChipEight.SystemError

/-!
# Launching

The command line names a program file and, if wanted, the number of instructions a second.  The number is looked at
before the file is read.

* `rate?` : reads a number below `2 ^ 32`: an optional plus sign and decimal digits, at least one.
* `Request.ofArgs?` : what a command line asks for.
* `fetch` : the program that is asked for, or why there is none.
-/

namespace ChipEight.Launch

def usage : String := "usage: chip8 <rom> [cycles-per-second]"

/-- The number of decimal digits `cs` behind the digits of `n`. -/
def decimal (n : Nat) (cs : List Char) : Nat := cs.foldl (fun n c => n * 10 + (c.toNat - '0'.toNat)) n

/-- The number that a text stands for. -/
def rate? (text : String) : Option UInt32 :=
  let digits := match text.toList with
    | '+' :: cs => cs
    | cs => cs
  if digits.isEmpty || !digits.all Char.isDigit then none
  else
    let n := decimal 0 digits
    if n < UInt32.size then some (.ofNat n) else none

/-- What a command line asks for. -/
structure Request where
  path : String
  settings : Settings
  deriving DecidableEq, Repr

/-- The request of a command line; what follows the number is ignored. -/
def Request.ofArgs? : List String → Option Request
  | [] => none
  | [path] => some { path, settings := {} }
  | path :: hz :: _ => (rate? hz).map fun hz => { path, settings := ({} : Settings).withCycleRate hz }

/-- Why nothing could be launched. -/
inductive Failure where
  | usage
  | unreadable (e : SystemError)
  deriving DecidableEq, Repr

def Failure.report : Failure → String
  | .usage => "Error: \"" ++ Launch.usage ++ "\""
  | .unreadable e => "Error: " ++ e.describe

/-- The request of a command line and the program that it names, which `read` reads. -/
def fetch {m : Type → Type} [Monad m] (read : String → m (Except SystemError (List UInt8))) (args : List String) :
    m (Except Failure (Request × List UInt8)) :=
  match Request.ofArgs? args with
  | none => pure (.error .usage)
  | some r => do
    match ← read r.path with
    | .ok program => return .ok (r, program)
    | .error e => return .error (.unreadable e)

end ChipEight.Launch
