import ChipEight.SystemError

/-!
# Paths in a file tree

A path is a row of names with slashes between them.  It is followed name by name, from the root when it starts with a
slash and from the present folder otherwise.

* The name `.` stays in the folder and `..` goes to the one above; the root is above itself.
* A name that holds a link stands for the path that the link holds, but only so many links are followed.
* Every name but the last has to lead to a folder that can be searched, and the first one that does not decides the
  error.
* A slash behind the last name asks for a folder there.
* `FileTree.read?` : the file that can be read at a path.
* `FileTree.write?` : the file that can be written at a path, or that there is none yet and one can be made.
-/

namespace ChipEight

/-- What can be done with a folder. -/
structure Rights where
  /-- Whether it can be opened to see its names. -/
  listed : Bool := true
  /-- Whether a name can be looked up in it. -/
  searched : Bool := true
  /-- Whether a name can be too long to be looked up in it. -/
  limited : Bool := true
  /-- Why no file can be made in it. -/
  refusal : Option SystemError := none
  deriving DecidableEq, Repr

/-- What a place of a file tree can hold: a folder, a file that is an `α`, a path that stands for another place, or
something that nobody gets past. -/
inductive Entry (α : Type) where
  | folder (rights : Rights)
  | file (a : α)
  | link (path : String)
  | barrier (e : SystemError)
  deriving DecidableEq, Repr

/-- A place in a file tree: the names that lead to it from the root, the last one first. -/
abbrev Place := List String

/-- What every place holds, if it holds anything. -/
abbrev FileTree (α : Type) := Place → Option (Entry α)

namespace FileTree

variable {α : Type}

/-- The bytes of the longest name. -/
def nameLimit : Nat := 255

/-- The bytes of the longest path. -/
def pathLimit : Nat := 4095

/-- The links that are followed on the way to one place. -/
def linkLimit : Nat := 40

/-- The names of a path, without the empty ones. -/
def names (path : String) : List String := (path.splitOn "/").filter (· ≠ "")

/-- The folder in which the first name of a path is looked up. -/
def start (here : Place) (path : String) : Place := if path.startsWith "/" then [] else here

/-- What can be done with the folder at a place. -/
def rights (t : FileTree α) (p : Place) : Rights :=
  match t p with
  | some (.folder r) => r
  | _ => {}

/-- What a name leads to in a folder. -/
def look (t : FileTree α) (p : Place) (name : String) : Except SystemError (Option (Entry α)) :=
  if (t.rights p).limited && nameLimit < name.utf8ByteSize then .error .nameTooLong else .ok (t (name :: p))

/-- Where a path ends: in a folder, in a file, or with a last name that is not in its folder. -/
inductive Goal (α : Type) where
  | folder (rights : Rights)
  | file (a : α)
  | missing (rights : Rights)
  deriving DecidableEq, Repr

/-- Where some names lead from a folder; `jump` goes on from a link. -/
def trace (t : FileTree α) (jump : Place → List String → Except SystemError (Goal α)) (p : Place) :
    List String → Except SystemError (Goal α)
  | [] => .ok (.folder (t.rights p))
  | name :: rest =>
    if !(t.rights p).searched then .error .accessDenied
    else if name = "." then t.trace jump p rest
    else if name = ".." then t.trace jump p.tail rest
    else
      match t.look p name with
      | .error e => .error e
      | .ok none => if rest.isEmpty then .ok (.missing (t.rights p)) else .error .notFound
      | .ok (some (.barrier e)) => .error e
      | .ok (some (.file a)) => if rest.isEmpty then .ok (.file a) else .error .notDirectory
      | .ok (some (.folder _)) => t.trace jump (name :: p) rest
      | .ok (some (.link path)) => jump (start p path) (names path ++ rest)

/-- Where some names lead from a folder, following at most so many links. -/
def follow (t : FileTree α) : (links : Nat) → Place → List String → Except SystemError (Goal α)
  | 0 => t.trace fun _ _ => .error .tooManyLinks
  | links + 1 => t.trace (t.follow links)

/-- Why a path is not looked at at all. -/
def misfit? (path : String) : Option SystemError :=
  if path.contains '\x00' then some .nullInPath
  else if path = "" then some .notFound
  else if pathLimit < path.utf8ByteSize then some .nameTooLong
  else none

/-- Where a path ends whose names are replaced by `names`. -/
def goal (t : FileTree α) (here : Place) (path : String) (names : List String) : Except SystemError (Goal α) :=
  match misfit? path with
  | some e => .error e
  | none => t.follow linkLimit (start here path) names

/-- The file at a path, to be read. -/
def read? (t : FileTree α) (here : Place) (path : String) : Except SystemError α :=
  match t.goal here path (names path) with
  | .error e => .error e
  | .ok (.folder r) => .error (if r.listed then .isDirectory else .accessDenied)
  | .ok (.file a) => if path.endsWith "/" then .error .notDirectory else .ok a
  | .ok (.missing _) => .error .notFound

/-- The file at a path, to be written; `none` when there is none but one can be made.  Behind a slash no file can be,
whatever the last name leads to. -/
def write? (t : FileTree α) (here : Place) (path : String) : Except SystemError (Option α) :=
  if path.endsWith "/" then
    match t.goal here path ((names path).dropLast ++ ["."]) with
    | .error e => .error e
    | .ok _ => .error .isDirectory
  else
    match t.goal here path (names path) with
    | .error e => .error e
    | .ok (.folder _) => .error .isDirectory
    | .ok (.file a) => .ok (some a)
    | .ok (.missing r) =>
      match r.refusal with
      | some e => .error e
      | none => .ok none

end FileTree

end ChipEight
