import VbTidy.Shelf

/-
Block keywords. Phrases of keywords open and close blocks; a line shifts the depth by the sum over
the phrases it holds. The longer phrases are counted first and taken out of the line, so that the
end of a block is not also counted as a start.
-/
namespace VbTidy

/-- A phrase and the shift it causes. -/
structure Rule where
  phrase : Text
  shift : Int
  /-- The shift is for the line of the phrase alone, and not for those that follow. -/
  lineOnly : Bool
deriving Repr, DecidableEq

namespace Rule

/-- The number of words of the phrase. -/
def wordCount (r : Rule) : Nat :=
  (words r.phrase).length

/-- The pattern of the phrase: whole words in any letter case. -/
def pattern (r : Rule) : Pattern :=
  phrasePattern (words r.phrase)

end Rule

/-- The rules by kind of block. -/
def ruleTable : List Rule :=
  [("do while", 1, false), ("do until", 1, false), ("do", 1, false),
   ("loop while", -1, false), ("loop until", -1, false), ("loop", -1, false),
   ("while", 1, false), ("wend", -1, false),
   ("if", 1, false), ("end if", -1, false),
   ("for", 1, false), ("next", -1, false),
   ("function", 1, false), ("end function", -1, false),
   ("sub", 1, false), ("end sub", -1, false),
   ("property", 1, false), ("end property", -1, false),
   ("class", 1, false), ("end class", -1, false),
   ("with", 1, false), ("end with", -1, false),
   ("select case", 2, false), ("end select", -2, false),
   ("case else", -1, true), ("elseif", -1, true), ("else", -1, true), ("case", -1, true),
   ("exit do", 0, false), ("exit for", 0, false), ("exit function", 0, false),
   ("exit sub", 0, false), ("exit property", 0, false)].map
    fun (phrase, shift, lineOnly) => ⟨phrase.toList, shift, lineOnly⟩

/-- The rules in the order in which they are counted: of two words first, then of one. -/
def rules : List Rule :=
  ruleTable.filter (·.wordCount == 2) ++ ruleTable.filter (·.wordCount == 1)

/-- The shift of the depth on a line: for all that follows, and for the line alone. -/
structure Shift where
  block : Int
  line : Int
deriving Repr, DecidableEq

namespace Shift

/-- No shift. -/
def zero : Shift := ⟨0, 0⟩

/-- The shift of `n` phrases of a rule on top of another. -/
def add (s : Shift) (r : Rule) (n : Nat) : Shift :=
  if r.lineOnly then { s with line := s.line + r.shift * n }
  else { s with block := s.block + r.shift * n }

end Shift

/-- Whether nothing follows that makes the statement a block: the line ends, or only a comment or
markup is left. -/
def endsAfterThen (t : Text) : Bool :=
  let t := t.dropWhile isBlank
  t == [] || t == ['\n'] || (dropWord? Kind.remark.token t).isSome ||
    (dropWord? Kind.markup.token t).isSome

/-- Whether a word in any letter case starts and ends here. -/
def wordHere (word : Text) (before : Option Char) (t : Text) : Bool :=
  atBoundary before t &&
    match dropWord? word t with
    | some rest => !wordAt rest.head?
    | none => false

/-- Whether a Then with a statement behind it follows on the same line. -/
def hasThenStatement : Option Char → Text → Bool
  | _, [] => false
  | before, c :: t =>
    (wordHere "then".toList before (c :: t) && !endsAfterThen (t.drop 3)) ||
      (c != '\n' && hasThenStatement (some c) t)

/-- The pattern of an If with its statement on the same line, to the end of the line. -/
def oneLineIfPattern : Pattern := fun before t =>
  if wordHere "if".toList before t && hasThenStatement (t.head?) (t.drop 1) then
    some (firstLine t).length
  else none

/-- Counts the phrases of rules one after the other and takes them out of the line. -/
def countRules : List Rule → Shift → Text → Shift
  | [], s, _ => s
  | r :: rs, s, line =>
    let w := r.pattern.weave line
    countRules rs (s.add r w.rest.length) (w.replace fun _ => [' '])

/-- The shift that a line of code causes. -/
def shiftOf (line : Text) : Shift :=
  countRules rules Shift.zero (oneLineIfPattern.replace (fun _ => [' ']) line)

end VbTidy
