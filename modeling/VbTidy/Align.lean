import VbTidy.Shelf
import VbTidy.Text.Width

/-
Alignment. In runs of neighbouring lines the equals signs of assignments, and the comments behind
code, are brought to one column. A column is measured in display width on the text as it will be
with all literals put back.
-/
namespace VbTidy

/-- Whether a line may stand between two lines of a run: blank, or just a comment. -/
def isGap (line : Text) : Bool :=
  trim line == [] || trim line == Kind.remark.token

/-- The line at an index; a negative index counts from the end. -/
def lineAt? (lines : List Text) (i : Int) : Option Text :=
  if 0 ≤ i then lines[i.toNat]?
  else if 0 ≤ lines.length + i then lines[(lines.length + i).toNat]?
  else none

/-- Whether two candidates belong to one run: neighbours, or with one gap between them. -/
def linked (lines : List Text) (i j : Int) : Bool :=
  j == i + 1 || (j == i + 2 && (lineAt? lines (i + 1)).any isGap)

/-- The longest runs of candidates in which each is linked to the next, of two lines or more. -/
def linkedRuns (lines : List Text) (candidates : List Int) : List (List Int) :=
  (candidates.splitBy (linked lines)).filter fun run => 2 ≤ run.length

/-- Whether the line between each two candidates that are two apart is there. -/
def gapsThere (lines : List Text) : List Int → Bool
  | i :: j :: more => (j != i + 2 || (lineAt? lines (i + 1)).isSome) && gapsThere lines (j :: more)
  | _ => true

/-- The runs of candidates that may be any numbers. -/
def runsOf (lines : List Text) (candidates : List Int) : Except Fault (List (List Int)) :=
  if gapsThere lines candidates then .ok (linkedRuns lines candidates) else .error .noSuchLine

/-- The place of a cut in a line; a negative one counts from the end. -/
def cutPlace (line : Text) (cut : Int) : Nat :=
  if 0 ≤ cut then cut.toNat else (line.length + cut).toNat

/-- The columns of the cuts in lines: the display width of the text before the cut, since the last
line break, with its literals put back. All lines are filled in order, those without a cut too. -/
def columnsFrom (s : Shelves) : PerKind Nat → List (Text × Option Nat) →
    Except Fault (List (Option Nat))
  | _, [] => .ok []
  | at_, (line, none) :: more =>
    match s.fill at_ line with
    | (.error f, _) => .error f
    | (.ok _, at_) => (columnsFrom s at_ more).map (none :: ·)
  | at_, (line, some cut) :: more =>
    match s.fill at_ (line.take cut) with
    | (.error f, _) => .error f
    | (.ok head, at_) =>
      match s.fill at_ (line.drop cut) with
      | (.error f, _) => .error f
      | (.ok _, at_) => (columnsFrom s at_ more).map (some (width (lastLine head)) :: ·)

/-- The columns of the cuts in all lines of a document. -/
def columns (s : Shelves) (lines : List (Text × Option Nat)) : Except Fault (List (Option Nat)) :=
  columnsFrom s (PerKind.const 0) lines

/-- What is brought to one column: where it is on a line, and how it is moved right. -/
structure Marker where
  /-- The cut before the marked place, if the line has one. -/
  cut : Text → Option Nat
  /-- A line with the part after the cut moved right by a number of columns. -/
  shift : Nat → Nat → Text → Text

/-- What is left of an assignment after its target, at the equals sign. -/
def dropTarget? (t : Text) : Option Text :=
  let rest := t.dropWhile fun c => !isSpace c && c != '='
  if rest.length < t.length then
    match rest.dropWhile isBlank with
    | '=' :: after => some ('=' :: after)
    | _ => none
  else none

/-- Whether a line is an assignment: an optional Set, one target without white space, and the
equals sign. A line that starts with a token is none. -/
def isAssignment (line : Text) : Bool :=
  let t := line.dropWhile isBlank
  t.head? != some '\x00' && (afterSet t || (dropTarget? t).isSome)
where
  afterSet (t : Text) : Bool :=
    match dropWord? "set".toList t with
    | some (c :: rest) => isBlank c && (dropTarget? (rest.dropWhile isBlank)).isSome
    | _ => false

/-- The equals sign of an assignment. -/
def assignmentMarker : Marker where
  cut line := if isAssignment line then find? ['='] line else none
  shift cut n line := line.take cut ++ List.replicate n ' ' ++ line.drop cut

/-- The comment behind code, with one space before it at least. -/
def remarkMarker : Marker where
  cut line :=
    if trim line == Kind.remark.token then none
    else (find? Kind.remark.token line).map fun i => (dropEnd isSpace (line.take i)).length
  shift cut n line :=
    line.take cut ++ List.replicate (n + 1) ' ' ++ (line.drop cut).dropWhile isSpace

namespace Marker

/-- The lines that have the marked place. -/
def candidates (m : Marker) (lines : List Text) : List Nat :=
  (lines.zipIdx.filter fun p => (m.cut p.1).isSome).map Prod.snd

/-- The runs of lines that are aligned. -/
def runs (m : Marker) (lines : List Text) : List (List Nat) :=
  (linkedRuns lines ((m.candidates lines).map Int.ofNat)).map (·.map Int.toNat)

/-- The column of a line. -/
def columnAt (cols : Array (Option Nat)) (i : Nat) : Nat :=
  (cols[i]?).join.getD 0

/-- The column that a run is brought to: the rightmost one of its lines. -/
def target (cols : Array (Option Nat)) (run : List Nat) : Nat :=
  (run.map (columnAt cols)).foldl max 0

/-- A line of a document in which runs are brought to the column that stands with each. -/
def alignLine (m : Marker) (targets : List (List Nat × Nat)) (cols : Array (Option Nat)) (i : Nat)
    (line : Text) : Text :=
  match targets.find? (·.1.contains i), m.cut line with
  | some (_, column), some cut => m.shift cut (column - columnAt cols i) line
  | _, _ => line

/-- Lines with the marked places of each run in one column. -/
def align (m : Marker) (s : Shelves) (lines : List Text) : Except Fault (List Text) :=
  let runs := m.runs lines
  if runs.isEmpty then .ok lines
  else (columns s (lines.map fun line => (line, m.cut line))).map fun cols =>
    let cols := cols.toArray
    let targets := runs.map fun run => (run, target cols run)
    lines.mapIdx (m.alignLine targets cols)

end Marker

end VbTidy
