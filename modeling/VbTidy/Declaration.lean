import VbTidy.Shelf

/-
Declarations. A Dim statement with several names becomes one statement per name, each on a line of
its own; what stands before the statement stays with the first, what stands after it with the last.
-/
namespace VbTidy

/-- The pattern of the word Dim where it is neither part of a word nor a member name. -/
def dimPattern : Pattern := fun before t =>
  if before == some '.' || wordAt before then none
  else
    match dropWord? "dim".toList t with
    | some rest => if wordAt rest.head? then none else some 3
    | none => none

/-- The parts of a text between its commas outside parentheses. A closing parenthesis too many
does not count. -/
def cutNames : Nat → Text → List Text
  | _, [] => [[]]
  | depth, c :: t =>
    if c == ',' && depth == 0 then [] :: cutNames 0 t
    else
      let depth := if c == '(' then depth + 1 else if c == ')' then depth - 1 else depth
      match cutNames depth t with
      | [] => [[c]]
      | part :: parts => (c :: part) :: parts

/-- Whether a statement ends here: at a colon, a comment or markup. -/
def endsStatement (t : Text) : Bool :=
  t.head? == some ':' || Kind.remark.token.isPrefixOf t || Kind.markup.token.isPrefixOf t

/-- A text as the statement at its start and the rest. -/
def splitStatement : Text → Text × Text
  | [] => ([], [])
  | c :: t =>
    if endsStatement (c :: t) then ([], c :: t)
    else
      let r := splitStatement t
      (c :: r.1, r.2)

/-- The names in a list of declared names. -/
def declaredNames (list : Text) : List Text :=
  ((cutNames 0 list).map trim).filter (!·.isEmpty)

/-- Puts a text behind the last line. -/
def appendToLast (rest : Text) : List Text → List Text
  | [] => []
  | [line] => [line ++ rest]
  | line :: lines => line :: appendToLast rest lines

/-- A line with one statement per name that its first Dim declares. -/
def splitDeclaration (line : Text) : List Text :=
  match dimPattern.first? line with
  | none => [line]
  | some (before, dim, after) =>
    let (list, rest) := splitStatement after
    match declaredNames list with
    | first :: second :: names =>
      appendToLast rest
        ((before ++ dim ++ ' ' :: first) :: (second :: names).map fun n => dim ++ ' ' :: n)
    | _ => [line]

/-- All lines with one statement per name. -/
def splitDeclarations (lines : List Text) : List Text :=
  lines.flatMap splitDeclaration

/-- The number of lines that are split. -/
def countSplit (lines : List Text) : Nat :=
  lines.countP fun line => 1 < (splitDeclaration line).length

end VbTidy
