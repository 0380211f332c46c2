import VbTidy.Shelf

/-
The statement that goes on after an error. Its words are not block keywords, so the phrase is put
aside, and it comes back in one spelling.
-/
namespace VbTidy

/-- The one spelling of the phrase. -/
def resumePhrase : Text :=
  "On Error Resume Next".toList

/-- What is left after words in any letter case with blanks between them. -/
def dropBlankPhrase? : List Text → Text → Option Text
  | [], t => some t
  | [w], t => dropWord? w t
  | w :: ws, t =>
    match dropWord? w t with
    | some (c :: rest) => if isBlank c then dropBlankPhrase? ws (rest.dropWhile isBlank) else none
    | _ => none

/-- The pattern of the phrase in any letter case and spacing. -/
def resumePattern : Pattern :=
  (Pattern.ofRest (dropBlankPhrase? (words resumePhrase))).wholeWords

/-- A line cut at its phrases. -/
def cutResume (line : Text) : Weave :=
  resumePattern.weave line

end VbTidy
