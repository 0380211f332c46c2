import VbTidy.File.Path
import VbTidy.File.Encoding

/-
A tree of files. A place is the list of names from the root of the tree; a directory is there when
it was made or when something lies below it.
-/
namespace VbTidy

/-- The names from the root of a tree to a file or a directory. -/
abbrev Place := List Text

/-- Places are ordered name by name, and names character by character. -/
instance (priority := high) placeLE : LE Place :=
  List.instLE

instance (priority := high) placeDecidableLE (a b : Place) : Decidable (a ≤ b) :=
  List.decidableLE a b

/-- The number of bytes of a text in UTF-8. -/
def byteLength (t : Text) : Nat :=
  (t.flatMap Encoding.utf8Bytes).length

/-- The greatest number of bytes of a file name. -/
def longestName : Nat :=
  255

/-- The greatest number of bytes of a path. -/
def longestPath : Nat :=
  4095

/-- Where a path leads. -/
inductive Whereabouts where
  /-- To a place, at which there may be something or not. -/
  | place (at_ : Place)
  /-- Nowhere, since a directory on the way is missing. -/
  | missing
  /-- Nowhere, since a name on the way is too long. -/
  | tooLong
deriving Repr, DecidableEq

/-- A path is too long, or a name in it. -/
structure NameTooLong where
  path : Path
deriving Repr, DecidableEq

/-- The text by which it is told. -/
def NameTooLong.message (e : NameTooLong) : Text :=
  "[Errno 36] File name too long: ".toList ++ quoted e.path.text

/-- Files with their content, and directories made without one. -/
structure Tree where
  files : List (Place × Bytes)
  folders : List Place
deriving Repr, DecidableEq

namespace Tree

/-- The content of a file. -/
def read? (tree : Tree) (at_ : Place) : Option Bytes :=
  tree.files.lookup at_

/-- Whether a place is a file. -/
def isFile (tree : Tree) (at_ : Place) : Bool :=
  (tree.read? at_).isSome

/-- Whether a place is a directory. -/
def isFolder (tree : Tree) (at_ : Place) : Bool :=
  at_.isEmpty || tree.folders.any (at_.isPrefixOf ·) ||
    tree.files.any fun f => at_.isPrefixOf f.1 && at_ != f.1

/-- Replaces the content in a list of files, or adds the file at the end. -/
def put (at_ : Place) (content : Bytes) : List (Place × Bytes) → List (Place × Bytes)
  | [] => [(at_, content)]
  | f :: fs => if f.1 == at_ then (at_, content) :: fs else f :: put at_ content fs

/-- Writes a file. -/
def write (tree : Tree) (at_ : Place) (content : Bytes) : Tree :=
  { tree with files := put at_ content tree.files }

/-- Removes a file. -/
def remove (tree : Tree) (at_ : Place) : Tree :=
  { tree with files := tree.files.filter (·.1 != at_) }

/-- Moves a file to a place, over the file that is there. -/
def move (tree : Tree) (source target : Place) : Tree :=
  match tree.read? source with
  | some content => (tree.remove source).write target content
  | none => tree

/-- Follows names from a place; each step has to start in a directory, and its name must not be too
long. -/
def follow (tree : Tree) : Place → List Text → Whereabouts
  | at_, [] => .place at_
  | at_, n :: ns =>
    if !tree.isFolder at_ then .missing
    else if longestName < byteLength n then .tooLong
    else follow tree (if n == ['.', '.'] then at_.dropLast else at_ ++ [n]) ns

/-- Where a path seen from a directory leads. -/
def locate (tree : Tree) (cwd : Place) (p : Path) : Whereabouts :=
  if longestPath < byteLength p.text then .tooLong
  else tree.follow (if p.lead.isEmpty then cwd else []) p.names

end Tree

/-- The absolute path of a place. -/
def Place.path (at_ : Place) : Path :=
  ⟨['/'], at_⟩

end VbTidy
