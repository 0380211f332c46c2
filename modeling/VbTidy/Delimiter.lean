import VbTidy.Shelf

/-
Delimiters of client comments. They are put aside one by one, and a document has to have an even
number of them.
-/
namespace VbTidy

/-- The pattern of an opening or a closing delimiter. -/
def delimiterPattern : Pattern := fun before t =>
  (Pattern.literal "<!--".toList before t).or (Pattern.literal "-->".toList before t)

/-- A document cut at its delimiters. -/
def cutDelimiters (t : Text) : Except Fault Weave :=
  let w := delimiterPattern.weave t
  if w.rest.length % 2 = 0 then .ok w else .error (.oddDelimiters w.rest.length)

end VbTidy
