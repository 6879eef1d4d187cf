import CypherAssist.Text.Wide

/-! Paths of files. A path is kept as its parts: dots that stand for the directory itself and
slashes that are repeated or stand at the end are left out, parents are kept. Exactly two slashes
in front are told apart from one. A path is any text, whether or not there can be a file with that
name. -/
namespace CypherAssist.Workspace
open Text

/-- Where a path starts: at the current directory, or at the root, which has a second spelling. -/
inductive Start where
  | current
  | root
  | doubleRoot
  deriving DecidableEq, Repr

/-- How a path begins. -/
def Start.text : Start → WideText
  | .current => ""
  | .root => "/"
  | .doubleRoot => "//"

/-- A path by its start and its parts. -/
structure Path where
  start : Start
  parts : List WideText
  deriving DecidableEq, Repr

namespace Path

/-- The mark between parts. -/
def slash : Point := .char '/'

/-- The part that takes back the part before it. -/
def parent : WideText := ".."

/-- The pieces of a text between slashes. -/
def segments : WideText → List WideText
  | [] => [[]]
  | point :: rest =>
    if point = slash then [] :: segments rest
    else match segments rest with
      | [] => [[point]]
      | first :: more => (point :: first) :: more

/-- The start of a path as it is spelt, and the text behind it. -/
def startOf : WideText → Start × WideText
  | .char '/' :: .char '/' :: .char '/' :: rest => (.root, slash :: slash :: rest)
  | .char '/' :: .char '/' :: rest => (.doubleRoot, rest)
  | .char '/' :: rest => (.root, rest)
  | text => (.current, text)

/-- Whether a segment is a part: the empty one and the single dot are none. -/
def isPart (segment : WideText) : Bool := segment != "" && segment != "."

/-- The path that a text names. -/
def ofText (text : WideText) : Path :=
  let (start, rest) := startOf text
  ⟨start, (segments rest).filter isPart⟩

/-- The text of a path. The current directory is a dot. -/
def text (path : Path) : WideText :=
  if path.start = .current ∧ path.parts = [] then "."
  else path.start.text ++ [slash].intercalate path.parts

/-- Whether a path starts at the root. -/
def isAbsolute (path : Path) : Bool := path.start != .current

/-- A path below another one. -/
def child (path : Path) (parts : List WideText) : Path :=
  { path with parts := path.parts ++ parts }

/-- A path as seen from a directory. -/
def within (path directory : Path) : Path :=
  if path.isAbsolute then path else directory.child path.parts

/-- The owner of the home directory in which a path starts, and the parts below it. A first part
that starts with a tilde names the owner; nothing behind the tilde stands for the present user. -/
def atHome? (path : Path) : Option (WideText × List WideText) :=
  match path.start, path.parts with
  | .current, (.char '~' :: owner) :: rest => some (owner, rest)
  | _, _ => none

/-- The place that a path names in a tree without links: its parts from the root on, where a parent
takes back the part before it. -/
def place (current : List WideText) (path : Path) : List WideText :=
  path.parts.foldl (fun place part => if part = parent then place.dropLast else place ++ [part])
    (if path.isAbsolute then [] else current)

end Path

end CypherAssist.Workspace
