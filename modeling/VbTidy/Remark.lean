import VbTidy.Shelf

/-
Strings and comments on a line. A comment starts at an apostrophe, or at the word Rem where a
statement starts, outside double quotes, and runs to the end of the line. Strings are put aside in
the code before the comment, then the comment itself.
-/
namespace VbTidy

/-- Whether a statement starts after a text, given last character first: at the start of the line,
after a colon or after markup. -/
def startsStatement (before : Text) : Bool :=
  match before.dropWhile isSpace with
  | [] => true
  | ':' :: _ => true
  | before => Kind.markup.token.reverse.isPrefixOf before

/-- Whether the word Rem stands here, before white space or the end of the line. -/
def isRem : Text → Bool
  | r :: e :: m :: t =>
    lowerChar r == 'r' && lowerChar e == 'e' && lowerChar m == 'm' && t.head?.all isSpace
  | _ => false

/-- The position of the comment in a text that stands after `before`, which is given last character
first, inside a string or not. -/
def remarkFrom (quoted : Bool) (before : Text) : Text → Option Nat
  | [] => none
  | c :: t =>
    if c == '"' then (remarkFrom (!quoted) (c :: before) t).map (· + 1)
    else if !quoted && (c == '\'' || (isRem (c :: t) && startsStatement before)) then some 0
    else (remarkFrom quoted (c :: before) t).map (· + 1)

/-- The position at which the comment of a line starts. -/
def remarkStart? (line : Text) : Option Nat :=
  remarkFrom false [] line

/-- A line as its code and its comment. -/
def splitRemark (line : Text) : Text × Text :=
  match remarkStart? line with
  | none => (line, [])
  | some i => line.splitAt i

/-- What is left after a string in double quotes on one line. -/
def dropString? : Text → Option Text
  | '"' :: t =>
    match t.dropWhile fun c => c != '"' && c != '\r' && c != '\n' with
    | '"' :: rest => some rest
    | _ => none
  | _ => none

/-- A line cut at the strings of its code. -/
def cutStrings (line : Text) : Weave :=
  let (code, remark) := splitRemark line
  let w := (Pattern.ofRest dropString?).weave code
  match w.rest.reverse with
  | [] => ⟨w.head ++ remark, []⟩
  | (hit, after) :: earlier => ⟨w.head, ((hit, after ++ remark) :: earlier).reverse⟩

/-- A line cut at its comment. -/
def cutRemark (line : Text) : Weave :=
  match remarkStart? line with
  | none => ⟨line, []⟩
  | some i => ⟨line.take i, [(line.drop i, [])]⟩

end VbTidy
