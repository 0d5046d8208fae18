/-!
# Errors of the operating system

What the system answers when a file cannot be used or a thread cannot be made, with its number, its kind and its words.
A path with a null character never gets to the system, and a sink that takes no byte says nothing: these two errors have
no number.
-/

namespace ChipEight

/-- An answer of the operating system other than success. -/
inductive SystemError where
  | notPermitted
  | notFound
  | inputOutput
  | noDevice
  | tryAgain
  | accessDenied
  | notDirectory
  | isDirectory
  | invalidArgument
  | noSpace
  | nameTooLong
  | tooManyLinks
  | nullInPath
  | nothingTaken
  deriving DecidableEq, Repr

namespace SystemError

def code? : SystemError → Option Nat
  | .notPermitted => some 1
  | .notFound => some 2
  | .inputOutput => some 5
  | .noDevice => some 6
  | .tryAgain => some 11
  | .accessDenied => some 13
  | .notDirectory => some 20
  | .isDirectory => some 21
  | .invalidArgument => some 22
  | .noSpace => some 28
  | .nameTooLong => some 36
  | .tooManyLinks => some 40
  | .nullInPath | .nothingTaken => none

/-- The kind of an error, in one word. -/
def kind : SystemError → String
  | .notPermitted | .accessDenied => "PermissionDenied"
  | .notFound => "NotFound"
  | .inputOutput => "InputOutputError"
  | .noDevice => "Uncategorized"
  | .tryAgain => "WouldBlock"
  | .notDirectory => "NotADirectory"
  | .isDirectory => "IsADirectory"
  | .invalidArgument | .nullInPath => "InvalidInput"
  | .noSpace => "StorageFull"
  | .nameTooLong => "InvalidFilename"
  | .tooManyLinks => "FilesystemLoop"
  | .nothingTaken => "WriteZero"

def phrase : SystemError → String
  | .notPermitted => "Operation not permitted"
  | .notFound => "No such file or directory"
  | .inputOutput => "Input/output error"
  | .noDevice => "No such device or address"
  | .tryAgain => "Resource temporarily unavailable"
  | .accessDenied => "Permission denied"
  | .notDirectory => "Not a directory"
  | .isDirectory => "Is a directory"
  | .invalidArgument => "Invalid argument"
  | .noSpace => "No space left on device"
  | .nameTooLong => "File name too long"
  | .tooManyLinks => "Too many levels of symbolic links"
  | .nullInPath => "file name contained an unexpected NUL byte"
  | .nothingTaken => "failed to write whole buffer"

/-- An error as messages show it: its words and its number. -/
def message (e : SystemError) : String :=
  match e.code? with
  | some n => e.phrase ++ " (os error " ++ toString n ++ ")"
  | none => e.phrase

/-- An error with all its parts named. -/
def describe (e : SystemError) : String :=
  let parts := "kind: " ++ e.kind ++ ", message: \"" ++ e.phrase ++ "\" \x7d"
  match e.code? with
  | some n => "Os \x7b code: " ++ toString n ++ ", " ++ parts
  | none => "Error \x7b " ++ parts

def ofCode? (n : Nat) : Option SystemError :=
  [notPermitted, notFound, inputOutput, noDevice, tryAgain, accessDenied, notDirectory, isDirectory, invalidArgument,
    noSpace, nameTooLong, tooManyLinks].find? (·.code? == some n)

end SystemError

end ChipEight
