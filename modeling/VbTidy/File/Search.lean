import VbTidy.File.Tree
import VbTidy.File.Glob
import VbTidy.Text.Lower

/-
The search for script files. A directory stands for the script files in it, found by their suffix,
less those that a pattern excludes; a file that is named stands for itself.
-/
namespace VbTidy

/-- The suffixes of script files. -/
def scriptSuffixes : List Text :=
  [".vbs", ".asp", ".inc"].map String.toList

/-- Patterns of the files that are never searched for, the program's own among them. -/
def standardExcludes : List Text :=
  ["**/.git/**", "**/*.bak.*", "**/*.tmp.*"].map String.toList

/-- How directories are searched. -/
structure Search where
  recursive : Bool := true
  excludes : List Text := standardExcludes
  suffixes : List Text := scriptSuffixes
deriving Repr, DecidableEq

/-- Whether one pattern excludes a path, which is given from the directory searched. The path may
be read with a slash in front, and points and slashes in front of the pattern may be left out. -/
def excludedBy (relative pattern : Text) : Bool :=
  let p := trim pattern
  !p.isEmpty && (fitsGlob p relative || fitsGlob p ('/' :: relative) ||
    fitsGlob (p.dropWhile fun c => c == '.' || c == '/') relative)

/-- Whether some pattern excludes a path below a directory. -/
def isExcluded (path root : Path) (patterns : List Text) : Except NotBelow Bool :=
  (path.relativeTo root).map fun r => patterns.any (excludedBy r.text)

/-- Whether a file name has one of the suffixes, in any letter case. -/
def hasSuffix (suffixes : List Text) (name : Text) : Bool :=
  (suffixes.map lower).contains (lower (splitSuffix name).2)

/-- Whether a search takes a file, given by the names from the directory searched. -/
def Search.takes (s : Search) (names : List Text) : Bool :=
  (s.recursive || names.length == 1) && hasSuffix s.suffixes (names.getLast?.getD []) &&
    !s.excludes.any (excludedBy (Path.text ⟨[], names⟩))

/-- The files that a search finds below a directory, sorted by their names. -/
def scriptFiles (tree : Tree) (s : Search) (root : Place) : List Place :=
  let below := tree.files.filterMap fun (at_, _) =>
    if root.isPrefixOf at_ && at_ != root && s.takes (at_.drop root.length) then some at_ else none
  below.mergeSort fun a b => decide (a ≤ b)

/-- What paths stand for: the files, and the paths that are not there. -/
structure Targets where
  files : List Path
  missing : List Path
deriving Repr, DecidableEq

/-- What one path stands for. -/
def targetsOf (tree : Tree) (cwd : Place) (s : Search) (p : Path) : Except NameTooLong Targets :=
  match tree.locate cwd p with
  | .tooLong => .error ⟨p⟩
  | .missing => .ok ⟨[], [p]⟩
  | .place at_ =>
    if tree.isFolder at_ then .ok ⟨(scriptFiles tree s at_).map Place.path, []⟩
    else if tree.isFile at_ then .ok ⟨[p], []⟩
    else .ok ⟨[], [p]⟩

/-- What several paths stand for, in their order. -/
def targets (tree : Tree) (cwd : Place) (s : Search) (paths : List Path) :
    Except NameTooLong Targets := do
  let each ← paths.mapM (targetsOf tree cwd s)
  return ⟨each.flatMap Targets.files, each.flatMap Targets.missing⟩

/-- The patterns in the values of an option, separated by commas. -/
def splitPatterns (values : List Text) : List Text :=
  values.flatMap fun v => ((cutAt ',' v).map trim).filter (!·.isEmpty)

end VbTidy
