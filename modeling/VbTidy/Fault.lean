import VbTidy.Text.Quoted

/-
What can go wrong with a document or with the settings it is formatted under, and how it is told.
-/
namespace VbTidy

/-- A cause of failure. -/
inductive Fault where
  /-- The delimiters of client comments are not even in number. -/
  | oddDelimiters (count : Nat)
  /-- The tokens of a kind in the text are not as many as its literals. -/
  | tokenMismatch (name : Text) (shelved found : Nat)
  /-- The indent style is none of the known ones. -/
  | unknownIndentStyle
  /-- The indent is less than one space wide. -/
  | indentTooSmall
  /-- The indent is wider than any text can be. -/
  | indentTooLarge
  /-- The indent is wider than memory. -/
  | outOfMemory
  /-- The keyword case is none of the known ones. -/
  | unknownLetterCase
  /-- A word is a keyword up to letter case, and its lower case is not in the vocabulary. -/
  | strangeKeyword (word : Text)
  /-- A line is asked for that is not there. -/
  | noSuchLine
deriving Repr, DecidableEq

namespace Fault

/-- Faults of the document itself. -/
def isDocumentFault : Fault → Bool
  | oddDelimiters _ | tokenMismatch .. => true
  | _ => false

/-- Faults of the settings that are told to the user. -/
def isSettingsFault : Fault → Bool
  | unknownIndentStyle | indentTooSmall | unknownLetterCase => true
  | _ => false

/-- The text a fault is told by. -/
def message : Fault → Text
  | oddDelimiters n =>
    "客户端注释分隔符不成对（<!-- 与 --> 共 ".toList ++ decimal n ++ " 个）".toList
  | tokenMismatch name shelved found =>
    "占位符 ".toList ++ name ++ " 数量不一致：已提取 ".toList ++ decimal shelved ++
      " 个，文本中 ".toList ++ decimal found ++ " 个".toList
  | unknownIndentStyle => "indent_style 只能是 \"spaces\" 或 \"tabs\"".toList
  | indentTooSmall => "indent_size 必须大于 0".toList
  | indentTooLarge => "cannot fit 'int' into an index-sized integer".toList
  | outOfMemory => []
  | unknownLetterCase => "keyword_case 只能是 proper / upper / lower / unchanged".toList
  | strangeKeyword word => quoted word
  | noSuchLine => "list index out of range".toList

end Fault

end VbTidy
