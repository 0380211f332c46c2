import VbTidy.Fault
import VbTidy.Text.Pattern
import VbTidy.Text.Lower

/-
The vocabulary. Every word of a line that is a keyword in some letter case is written in the one
that the settings ask for; all other characters stay as they are.
-/
namespace VbTidy

/-- The keywords in their proper spelling. -/
def keywords : List Text :=
  ["Abs", "And", "Array", "Asc", "AtEndOfLine", "AtEndOfStream", "Atn", "Call", "Case", "CBool",
   "CByte", "CCur", "CDate", "CDbl", "Chr", "CInt", "Clear", "CLng", "Close", "CompareMode",
   "Const", "Cos", "Count", "CreateObject", "CreateTextFile", "CSng", "CStr", "Date", "DateAdd",
   "DateDiff", "DatePart", "DateSerial", "DateValue", "Day", "Description", "Dictionary", "Dim",
   "Do", "Each", "End", "Else", "ElseIf", "Empty", "Eqv", "Erase", "Err", "Error", "Escape",
   "Exists", "Exit", "Exp", "Explicit", "False", "FileSystemObject", "Fix", "For",
   "FormatCurrency", "FormatDateTime", "FormatNumber", "FormatPercent", "Function", "GetObject",
   "Hex", "HelpContext", "HelpFile", "Hour", "If", "Imp", "InputBox", "InStr", "InStrRev", "Int",
   "Is", "IsArray", "IsDate", "IsEmpty", "IsNull", "IsNumeric", "IsObject", "Item", "Items",
   "Join", "Keys", "LBound", "LCase", "Left", "Len", "LoadPicture", "Log", "Loop", "LTrim", "Mid",
   "Minute", "Mod", "Month", "MonthName", "MsgBox", "Next", "Not", "Now", "Nothing", "Null",
   "Number", "Oct", "On", "OpenTextFile", "Option", "Or", "Private", "Public", "Raise",
   "Randomize", "Read", "ReadAll", "ReadLine", "ReDim", "Rem", "Remove", "RemoveAll", "Replace",
   "Request", "Response", "Right", "Rnd", "Round", "RTrim", "ScriptEngine",
   "ScriptEngineBuildVersion", "ScriptEngineMajorVersion", "ScriptEngineMinorVersion", "Second",
   "Select", "Server", "Session", "Set", "Sgn", "Sin", "Skip", "SkipLine", "Source", "Space",
   "Split", "Sqr", "StrComp", "String", "StrReverse", "Sub", "Tan", "Then", "Time", "TextStream",
   "TimeSerial", "TimeValue", "To", "Trim", "True", "TypeName", "UBound", "UCase", "VarType",
   "Weekday", "WeekdayName", "Wend", "While", "With", "Write", "WriteBlankLines", "WriteLine",
   "Xor", "Year"].map String.toList

/-- The letter case that keywords are written in. -/
inductive LetterCase where
  | proper
  | upper
  | lower
  | unchanged
deriving Repr, DecidableEq

namespace LetterCase

/-- The name of a letter case in the settings. -/
def name : LetterCase → Text
  | proper => "proper".toList
  | upper => "upper".toList
  | lower => "lower".toList
  | unchanged => "unchanged".toList

/-- All letter cases, in the order in which they are offered. -/
def all : List LetterCase :=
  [proper, upper, lower, unchanged]

/-- The letter case of a name. -/
def ofName (n : Text) : Except Fault LetterCase :=
  match all.find? (·.name == n) with
  | some c => .ok c
  | none => .error .unknownLetterCase

/-- A keyword in a letter case; the vocabulary has ASCII letters only. -/
def write : LetterCase → Text → Text
  | upper, k => k.map Char.toUpper
  | lower, k => k.map Char.toLower
  | _, k => k

end LetterCase

/-- The keyword that a word spells in some letter case, dotless and long letters included. -/
def isKeyword (word : Text) : Bool :=
  keywords.any fun k => isSameWord k word

/-- The proper spelling of a word in lower case. -/
def properSpelling? (word : Text) : Option Text :=
  keywords.find? fun k => k.map Char.toLower == word

/-- A word as it is written in a letter case. A word that is a keyword only by an unusual letter has
no proper spelling. -/
def recaseWord (case : LetterCase) (word : Text) : Except Fault Text :=
  if isKeyword word then
    match properSpelling? (lower word) with
    | some k => .ok (case.write k)
    | none => .error (.strangeKeyword (lower word))
  else .ok word

/-- A text as runs of word characters and single other characters. -/
def wordRuns : Text → List Text
  | [] => []
  | c :: t =>
    if isWord c then
      match t, wordRuns t with
      | d :: _, run :: runs => if isWord d then (c :: run) :: runs else [c] :: run :: runs
      | _, runs => [c] :: runs
    else [c] :: wordRuns t

/-- A line with its keywords in a letter case. -/
def recaseLine (case : LetterCase) (line : Text) : Except Fault Text := do
  let runs ← (wordRuns line).mapM (recaseWord case)
  return runs.flatten

/-- Lines with their keywords in a letter case. -/
def recase (case : LetterCase) (lines : List Text) : Except Fault (List Text) :=
  match case with
  | .unchanged => .ok lines
  | _ => lines.mapM (recaseLine case)

end VbTidy
