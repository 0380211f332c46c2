import VbTidy.Text.Basic

/-
Patterns for file names. A star stands for any text, slashes included, a question mark for one
character, a bracket for one character of a class. The exclamation mark at the start of a bracket
negates it. A range whose ends are in the wrong order stands for nothing and takes its ends with it.
A bracket that is not closed stands for itself.
-/
namespace VbTidy

/-- One part of a pattern. -/
inductive GlobPart where
  | star
  | any
  | char (c : Char)
  | oneOf (negated : Bool) (ranges : List (Char × Char))
deriving Repr, DecidableEq

namespace Glob

/-- A character of a bracket, or the hyphen of a range. -/
inductive Mark where
  | char (c : Char)
  | to
deriving Repr, DecidableEq

/-- The marks of a bracket. The next `plain` characters are not taken as the hyphen of a range, nor
is the last one; after a hyphen that is the end of the range and one character more. -/
def marks : Nat → Text → List Mark
  | _, [] => []
  | plain + 1, c :: t => .char c :: marks plain t
  | 0, c :: t =>
    if c == '-' && !t.isEmpty then .to :: marks 2 t else .char c :: marks 0 t

/-- Takes out the ranges whose ends are in the wrong order. -/
def dropEmptyRanges : List Mark → List Mark
  | .char a :: .to :: .char b :: ms =>
    if b < a then dropEmptyRanges ms else .char a :: .to :: .char b :: dropEmptyRanges ms
  | m :: ms => m :: dropEmptyRanges ms
  | [] => []

/-- The ranges of a class; a single character is a range of one. -/
def ranges : List Mark → List (Char × Char)
  | .char a :: .to :: .char b :: ms => (a, b) :: ranges ms
  | .char a :: ms => (a, a) :: ranges ms
  | .to :: ms => ('-', '-') :: ranges ms
  | [] => []

/-- The part that the text of a bracket stands for. Without marks nothing matches, and a negation of
nothing matches any character. -/
def bracketPart (inside : Text) : GlobPart :=
  match dropEmptyRanges (marks (if inside.head? == some '!' then 2 else 1) inside) with
  | [.char '!'] => .any
  | .char '!' :: ms => .oneOf true (ranges ms)
  | ms => .oneOf false (ranges ms)

/-- The text of a bracket and what follows its end; a closing bracket at the start belongs to the
text. -/
def splitBracket (t : Text) : Option (Text × Text) :=
  let start := if t.head? == some '!' then 1 else 0
  let start := if (t.drop start).head? == some ']' then start + 1 else start
  match (t.drop start).dropWhile (· != ']') with
  | [] => none
  | _ :: rest => some (t.take (t.length - rest.length - 1), rest)

/-- The parts of a pattern of which the first `skip` characters belong to a bracket already read;
stars in a row count as one. -/
def partsFrom : Nat → Text → List GlobPart
  | _, [] => []
  | skip + 1, _ :: t => partsFrom skip t
  | 0, c :: t =>
    if c == '*' then
      if t.head? == some '*' then partsFrom 0 t else .star :: partsFrom 0 t
    else if c == '?' then .any :: partsFrom 0 t
    else if c == '[' then
      match splitBracket t with
      | none => .char '[' :: partsFrom 0 t
      | some (inside, _) => bracketPart inside :: partsFrom (inside.length + 1) t
    else .char c :: partsFrom 0 t

/-- The parts of a pattern. -/
def parts (pattern : Text) : List GlobPart :=
  partsFrom 0 pattern

end Glob

/-- Whether a character fits a part that stands for one. -/
def GlobPart.fits (c : Char) : GlobPart → Bool
  | star => false
  | any => true
  | char d => c == d
  | oneOf negated ranges => ranges.any (fun r => r.1 ≤ c && c ≤ r.2) != negated

/-- For each end of a list of parts, the whole list first, whether it fits the empty text. -/
def emptyRow : List GlobPart → List Bool
  | [] => [true]
  | p :: ps =>
    let row := emptyRow ps
    (p == .star && row.headD false) :: row

/-- For each end of a list of parts, whether it fits a text with `c` in front of one for which `row`
says the same. -/
def nextRow (c : Char) : List GlobPart → List Bool → List Bool
  | [], _ => [false]
  | p :: ps, row =>
    let next := nextRow c ps row.tail
    (match p with
      | .star => next.headD false || row.headD false
      | p => p.fits c && row.tail.headD false) :: next

/-- Whether parts of a pattern fit a whole text. -/
def fitsParts (ps : List GlobPart) (t : Text) : Bool :=
  (t.foldr (nextRow · ps) (emptyRow ps)).headD false

/-- Whether a pattern fits a whole text. -/
def fitsGlob (pattern t : Text) : Bool :=
  fitsParts (Glob.parts pattern) t

end VbTidy
