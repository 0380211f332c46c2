import VbTidy.Block

/-
Layout of lines. The depth of a line is the number of indents it gets: what closes a block shifts
the line it stands on, what opens one only those that follow. A blank line stands before an opening
and after a closing line.
-/
namespace VbTidy

/-- A line with its place in the nesting. -/
structure Row where
  text : Text
  depth : Nat
  /-- The line is blank or has comments only; it takes the depth it meets. -/
  remarkOnly : Bool
  shift : Shift
deriving Repr, DecidableEq

/-- Whether a line has nothing but white space and comments. -/
def isRemarkOnly (line : Text) : Bool :=
  ((Pattern.literal Kind.remark.token).replace (fun _ => []) line).all isSpace

/-- The row of a line at a depth, and the depth after it. The depth is never below zero. -/
def rowAt (depth : Nat) (line : Text) : Row × Nat :=
  let text := trim line
  if isRemarkOnly text then (⟨text, depth, true, Shift.zero⟩, depth)
  else
    let s := shiftOf text
    let before := if s.block < 0 then (depth + s.block).toNat else depth
    let after := if 0 < s.block then (before + s.block).toNat else before
    (⟨text, (before + s.line).toNat, false, s⟩, after)

/-- The rows of lines from a depth on, and the depth after them. -/
def nestFrom : Nat → List Text → List Row × Nat
  | depth, [] => ([], depth)
  | depth, line :: lines =>
    let here := rowAt depth line
    let rest := nestFrom here.2 lines
    (here.1 :: rest.1, rest.2)

/-- The rows of a document. -/
def nest (lines : List Text) : List Row :=
  (nestFrom 0 lines).1

/-- The number of blocks still open at the end. -/
def openDepth (lines : List Text) : Nat :=
  (nestFrom 0 lines).2

/-- The greatest depth of the rows. -/
def maxDepth (rows : List Row) : Nat :=
  (rows.map Row.depth).foldl max 0

/-- What is left after a word and the white space behind it, of which there must be some. -/
def dropWordSpace? (word t : Text) : Option Text :=
  match dropWord? word t with
  | some (c :: rest) => if isSpace c then some (rest.dropWhile isSpace) else none
  | _ => none

/-- Whether a procedure is declared here, with or without words on its visibility. -/
def declaresProcedure (t : Text) : Bool :=
  procedureWord t ||
    match (dropWordSpace? "public".toList t).or (dropWordSpace? "private".toList t) with
    | some t => procedureWord t || ((dropWordSpace? "default".toList t).any procedureWord)
    | none => false
where
  procedureWord (t : Text) : Bool :=
    wordHere "function".toList none t || wordHere "sub".toList none t

/-- Puts a line behind others that are given last one first: blank lines do not follow each other
or come first, and a comment stays with the procedure below it. -/
def addLine (above : List Text) (line : Text) : List Text :=
  match above, line with
  | [], [] => []
  | [] :: _, [] => above
  | _, [] => [] :: above
  | [] :: comment :: rest, _ =>
    if trim comment == Kind.remark.token && declaresProcedure (line.dropWhile isSpace) then
      line :: comment :: rest
    else line :: above
  | _, _ => line :: above

/-- Lines without superfluous blank lines. -/
def tidyBlankLines (lines : List Text) : List Text :=
  ((lines.foldl addLine []).dropWhile (·.isEmpty)).reverse

/-- A row indented; a row that starts with markup goes back to the margin. -/
def indented (unit : Text) (r : Row) : Text :=
  if Kind.markup.token.isPrefixOf r.text then r.text
  else (List.replicate r.depth unit).flatten ++ r.text

/-- The lines of a row: blank lines set off blocks. -/
def spread (unit : Text) (r : Row) : List Text :=
  if r.text.isEmpty then [[]]
  else
    (if 0 < r.shift.block then [[]] else []) ++ [indented unit r] ++
      (if r.shift.block < 0 then [[]] else [])

/-- The lines of rows. -/
def layOut (unit : Text) (rows : List Row) : List Text :=
  tidyBlankLines (rows.flatMap (spread unit))

/-- Lines indented by their nesting. -/
def indentLines (unit : Text) (lines : List Text) : List Text :=
  layOut unit (nest lines)

end VbTidy
