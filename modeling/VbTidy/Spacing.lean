import VbTidy.Shelf
import VbTidy.Text.Lower

/-
Operator spacing. Binary operators get one space on each side; a sign and the prefix of a
hexadecimal or octal number stay with their operand; the sign of an exponent stays with its number.
-/
namespace VbTidy

/-- What is left after an operator with two characters, blanks allowed between them. -/
def dropPair? (second : Char) (t : Text) : Option Text :=
  match t.dropWhile isBlank with
  | c :: rest => if c == second then some rest else none
  | [] => none

/-- What is left after an operator; the longer forms come first. -/
def dropOperator? : Text → Option Text
  | [] => none
  | c :: t =>
    if c == '<' then some (((dropPair? '>' t).or (dropPair? '=' t)).getD t)
    else if c == '=' then some (((dropPair? '<' t).or (dropPair? '>' t)).getD t)
    else if c == '>' then some ((dropPair? '=' t).getD t)
    else if c == '!' then dropPair? '=' t
    else if c == '&' || c == '+' || c == '-' then some t
    else none

/-- The pattern of an operator. -/
def operatorPattern : Pattern :=
  Pattern.ofRest dropOperator?

/-- Whether a number may start behind a text that is given last character first. -/
def startsNumber : Text → Bool
  | [] => true
  | c :: _ => !(isWord c || c == '.')

/-- A text given last character first, without a line feed at its end. -/
def skipFinalNewline : Text → Text
  | '\n' :: back => back
  | back => back

/-- Whether a text, given last character first, ends with a decimal number and the letter of an
exponent. A line feed at the end does not matter. -/
def endsWithExponent (back : Text) : Bool :=
  match skipFinalNewline back with
  | e :: back =>
    (e == 'e' || e == 'E') &&
      match back with
      | d :: _ =>
        isDecimal d &&
          match back.dropWhile isDecimal with
          | '.' :: back => startsNumber (back.dropWhile isDecimal)
          | back => startsNumber back
      | [] => false
  | [] => false

/-- Whether an ampersand before a text starts a hexadecimal or octal number. -/
def startsRadix : Text → Bool
  | [] => false
  | c :: t =>
    let digit :=
      if c == 'h' || c == 'H' then isHexDigit
      else if c == 'o' || c == 'O' then isOctalDigit
      else fun _ => false
    t.head?.any digit && !wordAt (t.dropWhile digit).head?
where
  isHexDigit (c : Char) : Bool :=
    c.isDigit || ('a' ≤ c && c ≤ 'f') || ('A' ≤ c && c ≤ 'F')
  isOctalDigit (c : Char) : Bool :=
    '0' ≤ c && c ≤ '7'

/-- Words after which a sign belongs to the operand that follows. -/
def wordsBeforeSign : List Text :=
  ["and", "or", "not", "xor", "eqv", "imp", "mod", "is", "to", "step", "then", "else", "elseif",
   "if", "case", "while", "until", "return", "call"].map String.toList

/-- Characters after which a sign belongs to the operand that follows. -/
def charsBeforeSign : Text :=
  "(,=<>&+-*/\\^:".toList

/-- The word at the end of a text that is given last character first; a line feed after it does not
matter. -/
def lastWord (back : Text) : Text :=
  ((skipFinalNewline back).takeWhile isWord).reverse

/-- Whether a sign behind a text, given last character first, belongs to the operand that
follows. -/
def takesSign (back : Text) : Bool :=
  match back with
  | [] => true
  | c :: _ => charsBeforeSign.contains c || wordsBeforeSign.contains (lower (lastWord back))

/-- How an operator is set. -/
inductive Setting where
  /-- As it is, as part of a number. -/
  | exponent
  /-- A space before it and none after it. -/
  | sign
  /-- A space on each side. -/
  | binary
deriving Repr, DecidableEq

/-- How an operator is set behind a text, given last character first, and in front of `after`. -/
def settingOf (back op after : Text) : Setting :=
  if (op == ['+'] || op == ['-']) && endsWithExponent back then .exponent
  else if op == ['&'] && startsRadix after then .sign
  else if (op == ['+'] || op == ['-']) && takesSign (back.dropWhile isBlank) then .sign
  else .binary

/-- The text so far with an operator behind it, both last character first. -/
def setOperator (back op : Text) : Setting → Text
  | .exponent => op ++ back
  | .sign =>
    match back.dropWhile isBlank with
    | [] => op
    | '(' :: bare => op ++ '(' :: bare
    | bare => op ++ ' ' :: bare
  | .binary =>
    match back.dropWhile isBlank with
    | [] => ' ' :: op
    | bare => ' ' :: op ++ ' ' :: bare

/-- Sets the operators behind a text one after the other; blanks after an operator go. The text is
given, and comes out, last character first. -/
def setOperators : Text → List (Text × Text) → Text
  | back, [] => back
  | back, (hit, after) :: more =>
    let op := hit.filter (!isBlank ·)
    let set := setOperator back op.reverse (settingOf back op after)
    setOperators ((after.dropWhile isBlank).reverse ++ set) more

/-- Code with its operators set. -/
def spaceOperators (code : Text) : Text :=
  let w := operatorPattern.weave code
  ((setOperators w.head.reverse w.rest).dropWhile isBlank).reverse

/-- Code with one space before the mark at its end that continues the line. -/
def spaceContinuation (code : Text) : Text :=
  match code.reverse with
  | '_' :: c :: t =>
    if isBlank c then ((c :: t).dropWhile isBlank).reverse ++ [' ', '_'] else code
  | _ => code

/-- A line with its white space in order: none at the ends, operators set, one space before the
comment. -/
def spaceLine (line : Text) : Text :=
  let bare := trim line
  let mark := Kind.remark.token
  if bare == mark || bare.isEmpty then bare
  else
    let code := if endsWith mark bare then bare.take (bare.length - mark.length) else bare
    let code := spaceContinuation (spaceOperators (trim code))
    if endsWith mark bare then code ++ ' ' :: mark else code

end VbTidy
