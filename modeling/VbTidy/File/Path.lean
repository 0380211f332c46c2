import VbTidy.Text.Quoted

/-
Paths as they are written: the slashes they start with and the names between slashes. Empty names
and single points are left out, two points stay. The suffix of a file name starts at its last
point, unless that point is the first or the last character.
-/
namespace VbTidy

/-- A written path. -/
structure Path where
  /-- No slash, one or exactly two. -/
  lead : Text
  names : List Text
deriving Repr, DecidableEq

namespace Path

/-- Reads a path; three slashes or more at its start count as one. -/
def parse (t : Text) : Path where
  lead :=
    match (t.takeWhile (· == '/')).length with
    | 0 => []
    | 2 => ['/', '/']
    | _ => ['/']
  names := (cutAt '/' t).filter fun n => !n.isEmpty && n != ['.']

/-- The slashes and names of a path, nothing for the empty one. -/
def bare (p : Path) : Text :=
  p.lead ++ ['/'].intercalate p.names

/-- The text of a path; the empty one is a point. -/
def text (p : Path) : Text :=
  if p.bare.isEmpty then ['.'] else p.bare

/-- The last name of a path. -/
def name (p : Path) : Text :=
  p.names.getLast?.getD []

/-- A path with another last name. -/
def withName (p : Path) (n : Text) : Path :=
  { p with names := p.names.dropLast ++ [n] }

end Path

/-- A file name as its stem and its suffix, the suffix with its point. -/
def splitSuffix (name : Text) : Text × Text :=
  let tail := (name.reverse.takeWhile (· != '.')).reverse
  let cut := name.length - tail.length - 1
  if tail.length < name.length && 0 < cut && !tail.isEmpty then (name.take cut, name.drop cut)
  else (name, [])

/-- A path is not below the directory it was asked for in. -/
structure NotBelow where
  path : Path
  root : Path
deriving Repr, DecidableEq

/-- The text by which it is told. -/
def NotBelow.message (e : NotBelow) : Text :=
  quoted e.path.text ++ " is not in the subpath of ".toList ++ quoted e.root.bare ++
    " OR one path is relative and the other is absolute.".toList

/-- The path from a directory to a path below it. -/
def Path.relativeTo (p root : Path) : Except NotBelow Path :=
  if p.lead == root.lead && root.names.isPrefixOf p.names then
    .ok ⟨[], p.names.drop root.names.length⟩
  else .error ⟨p, root⟩

end VbTidy
