import ChipEight.FileTree

/-!
# The state file

What the path of the state file leads to.  Saving empties the file first and writes then, so the two can fail apart.

* `StateFile.read`, `create`, `append` : what can be done with it.
* `StateFile.ofPath` : what a path leads to in a file tree.
-/

namespace ChipEight

/-- What is at the path of the state file. -/
inductive StateFile where
  /-- Nothing yet, but a file can be made. -/
  | absent
  /-- Nothing that can be used: the errors of the one who reads and of the one who writes. -/
  | refused (reading writing : SystemError)
  /-- A file with these bytes. -/
  | regular (bytes : List UInt8)
  /-- A file with these bytes that cannot be written: the error of the one who tries. -/
  | locked (bytes : List UInt8) (writing : SystemError)
  /-- A device that forgets what is written and has nothing to read. -/
  | sink
  /-- A device on which no byte finds room. -/
  | full
  deriving DecidableEq, Repr

namespace StateFile

def directory : StateFile := .refused .isDirectory .isDirectory

def read : StateFile → Except SystemError (List UInt8)
  | .absent => .error .notFound
  | .refused e _ => .error e
  | .regular bytes | .locked bytes _ => .ok bytes
  | .sink | .full => .ok []

/-- Makes or empties the file to write it anew. -/
def create : StateFile → Except SystemError StateFile
  | .absent | .regular _ => .ok (.regular [])
  | .refused _ e | .locked _ e => .error e
  | .sink => .ok .sink
  | .full => .ok .full

/-- Adds bytes to a file that was just made or emptied. -/
def append (bytes : List UInt8) : StateFile → Except SystemError StateFile
  | .regular old => .ok (.regular (old ++ bytes))
  | .full => if bytes.isEmpty then .ok .full else .error .noSpace
  | file => .ok file

/-- What a path leads to, seen from the folder `here`. -/
def ofPath (t : FileTree StateFile) (here : Place) (path : String) : StateFile :=
  match t.write? here path with
  | .ok none => .absent
  | .ok (some file) => file
  | .error writing =>
    match (t.read? here path).bind read with
    | .ok bytes => .locked bytes writing
    | .error reading => .refused reading writing

end StateFile

end ChipEight
