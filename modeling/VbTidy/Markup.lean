import VbTidy.Shelf

/-
Host markup. Script code stands between the delimiters `<%` and `%>`; all else is markup. A
document is cut into code and markup, the delimiters going with the markup, and on the way back
code and delimiter on one line are set one space apart.
-/
namespace VbTidy

mutual

/-- The cut of a document from a place inside code on. -/
def cutCode : Text → Weave
  | [] => ⟨[], []⟩
  | '%' :: '>' :: t =>
    let r := cutHost t
    r.2.pushHit ('%' :: '>' :: r.1)
  | c :: t => (cutCode t).push c

/-- The rest of the markup at a place inside markup, through the next opening delimiter, and the
cut of the document after it. -/
def cutHost : Text → Text × Weave
  | [] => ([], ⟨[], []⟩)
  | '<' :: '%' :: t => (['<', '%'], cutCode t)
  | c :: t =>
    let r := cutHost t
    (c :: r.1, r.2)

end

/-- Whether a document starts with markup: it has an opening delimiter, and no closing one stands
before that. -/
def startsInMarkup : Text → Bool
  | [] => false
  | '<' :: '%' :: _ => true
  | '%' :: '>' :: _ => false
  | _ :: t => startsInMarkup t

/-- A document cut into code and runs of markup. -/
def cutMarkup (t : Text) : Weave :=
  if startsInMarkup t then
    let r := cutHost t
    r.2.pushHit r.1
  else cutCode t

/-- Code before a closing delimiter: one space on a line that has code, and no change else. -/
def padBeforeClose (code : Text) : Text :=
  if (lastLine code).all isSpace then code else dropEnd isBlank code ++ [' ']

/-- Code after an opening delimiter: one space on a line that has code, and none before an inline
expression or a page directive. -/
def padAfterOpen (code : Text) : Text :=
  let bare := code.dropWhile isBlank
  if (firstLine code).all isSpace then bare
  else
    match bare with
    | '=' :: _ => bare
    | '@' :: _ => bare
    | _ => ' ' :: bare

/-- Joins code and the runs of markup after it, padding code where a delimiter borders on it. -/
def joinPadded : Text → List (Text × Text) → Text
  | code, [] => code
  | code, (host, after) :: more =>
    (if ['%', '>'].isPrefixOf host then padBeforeClose code else code) ++ host ++
      joinPadded (if endsWith ['<', '%'] host then padAfterOpen after else after) more

/-- Puts runs of markup back and pads the code at their delimiters. -/
def Shelf.putBackPadded (s : Shelf) (t : Text) : Except Fault Text := do
  s.check t
  let w := s.cut t
  return joinPadded w.head (s.literals.zip (w.rest.map Prod.snd))

end VbTidy
