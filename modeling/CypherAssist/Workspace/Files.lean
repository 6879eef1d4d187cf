import CypherAssist.Client.Log
import CypherAssist.Workspace.Name
import CypherAssist.Workspace.Path

/-! The files of a machine: a tree of directories without links. A place in the tree is given by the
names that lead to it from the root; paths are followed part by part, so that even a part that a
later parent takes back has to be a directory. -/
namespace CypherAssist.Workspace
open Text

/-- What a place holds. -/
inductive Entry where
  | file (bytes : List UInt8)
  | directory
  deriving DecidableEq, Repr

/-- The tree of files, and the directory at which relative paths start. -/
structure Files where
  entries : List (List Name × Entry) := []
  current : List Name := []
  deriving Repr

/-- Why a path leads nowhere or cannot be used. -/
inductive FileError where
  | notFound
  | exists
  | notDirectory
  | isDirectory
  | nameTooLong
  | nullInPath
  | unnameable (error : Unnameable)
  deriving DecidableEq, Repr

namespace FileError

/-- The kind of failure that an error is. -/
def kind : FileError → String
  | .notFound => "FileNotFoundError"
  | .exists => "FileExistsError"
  | .notDirectory => "NotADirectoryError"
  | .isDirectory => "IsADirectoryError"
  | .nameTooLong => "OSError"
  | .nullInPath => "ValueError"
  | .unnameable _ => "UnicodeEncodeError"

/-- The number of an error. Paths that the system is never asked for have none. -/
def number? : FileError → Option Nat
  | .notFound => some 2
  | .exists => some 17
  | .notDirectory => some 20
  | .isDirectory => some 21
  | .nameTooLong => some 36
  | .nullInPath => none
  | .unnameable _ => none

/-- The wording of an error. -/
def message : FileError → String
  | .notFound => "No such file or directory"
  | .exists => "File exists"
  | .notDirectory => "Not a directory"
  | .isDirectory => "Is a directory"
  | .nameTooLong => "File name too long"
  | .nullInPath => "embedded null byte"
  | .unnameable error => error.message

/-- The failure to use a path, which is named where the system has numbered the error. -/
def failure (error : FileError) (path : Path) : Client.Failure :=
  ⟨error.kind, match error.number? with
    | some number =>
      "[Errno " ++ toString number ++ "] " ++ error.message ++ ": " ++ quoted path.text
    | none => error.message⟩

end FileError

/-- The name that the system is asked for by a text. -/
def systemName (text : WideText) : Except FileError Name :=
  match Name.ofText? text with
  | .ok name => if name.contains 0 then .error .nullInPath else .ok name
  | .error error => .error (.unnameable error)

namespace Files

/-- What a place holds, if anything. The root is a directory. -/
def entry? (files : Files) (place : List Name) : Option Entry :=
  if place = [] then some .directory else files.entries.lookup place

/-- Puts an entry at a place. -/
def put (files : Files) (place : List Name) (entry : Entry) : Files :=
  { files with entries := (place, entry) :: files.entries.filter fun known => known.1 != place }

/-- The number of bytes that a name may have. -/
def longestName : Nat := 255

/-- The number of bytes that the name of a path may have. -/
def longestPath : Nat := 4095

/-- The name of the directory above. -/
def parent : Name := "..".toUTF8.toList

/-- Follows names from a place that has to be a directory wherever a name is left to follow. -/
def follow (files : Files) (place : List Name) : List Name → Except FileError (List Name)
  | [] => .ok place
  | name :: rest =>
    match files.entry? place with
    | none => .error .notFound
    | some (.file _) => .error .notDirectory
    | some .directory =>
      if name = parent then follow files place.dropLast rest
      else if longestName < name.length then .error .nameTooLong
      else follow files (place ++ [name]) rest

/-- The place to which a path leads, whether or not it holds anything. -/
def locate (files : Files) (path : Path) : Except FileError (List Name) := do
  if longestPath < (← systemName path.text).length then throw .nameTooLong
  follow files (if path.isAbsolute then [] else files.current) (← path.parts.mapM systemName)

/-- The bytes of a file. -/
def read (files : Files) (path : Path) : Except FileError (List UInt8) := do
  match files.entry? (← files.locate path) with
  | some (.file bytes) => return bytes
  | some .directory => throw .isDirectory
  | none => throw .notFound

/-- Whether a path leads to a file. A path that cannot be followed leads to none, but a name that is
too long is an error. -/
def isFile? (files : Files) (path : Path) : Except FileError Bool :=
  match files.read path with
  | .ok _ => .ok true
  | .error .nameTooLong => .error .nameTooLong
  | .error _ => .ok false

/-- The parts that lead to a part behind others. A parent takes back the part before it, and is kept
where there is none but parents. -/
def leading (start : Start) (before : List WideText) (part : WideText) : List WideText :=
  if part ≠ Path.parent then before ++ [part]
  else match before.getLast? with
    | some last => if last = Path.parent then before ++ [part] else before.dropLast
    | none => if start = .current then [part] else []

/-- Asks the system for each of several parts, parents apart, by all that leads to it. -/
def lookUp (start : Start) (before : List WideText) : List WideText → Except FileError Unit
  | [] => .ok ()
  | part :: rest =>
    let here := leading start before part
    if part = Path.parent then lookUp start here rest
    else match systemName (Path.text ⟨start, here⟩) with
      | .ok _ => lookUp start here rest
      | .error error => .error error

/-- The place of a path among all files, whether or not it holds anything. -/
def resolve (files : Files) (path : Path) : Except FileError (List WideText) := do
  lookUp (if path.isAbsolute then .root else .current) [] path.parts
  return path.place (files.current.map Name.text)

/-- Work on files. What has been done when it breaks off is not undone. -/
abbrev Work := ExceptT FileError (StateM Files)

/-- The files after some work, and how it ended. -/
def Work.on {α : Type} (work : Work α) (files : Files) : Except FileError α × Files :=
  StateT.run (ExceptT.run work) files

/-- Makes a directory where its parent is one; one that is there already is kept. -/
def makeChild (path : Path) : Work Unit := do
  let files ← get
  let place ← files.locate path
  match files.entry? place with
  | some .directory => return
  | some (.file _) => throw .exists
  | none => set (files.put place .directory)

/-- Makes a directory and the ones above it; the parts are given from the last one on. -/
def makeParts (start : Start) : List WideText → Work Unit
  | [] => makeChild ⟨start, []⟩
  | last :: above => do
    let path : Path := ⟨start, (last :: above).reverse⟩
    tryCatch (makeChild path) fun
      | .notFound => do
        makeParts start above
        makeChild path
      | error => throw error

/-- Makes a directory and the ones above it. -/
def makeDirectory (path : Path) : Work Unit := makeParts path.start path.parts.reverse

/-- Writes a file. The directories above it are made first, and stay where the file cannot be
written. -/
def write (path : Path) (bytes : List UInt8) : Work Unit := do
  makeDirectory { path with parts := path.parts.dropLast }
  let files ← get
  let place ← files.locate path
  match files.entry? place with
  | some .directory => throw .isDirectory
  | _ => set (files.put place (.file bytes))

end Files

end CypherAssist.Workspace
