import VbTidy.Markup
import VbTidy.Script
import VbTidy.Delimiter
import VbTidy.Remark
import VbTidy.Resume
import VbTidy.Declaration
import VbTidy.Spacing
import VbTidy.Keyword
import VbTidy.Layout
import VbTidy.Align
import VbTidy.Traced

/-
Formatting of a document. Everything that has to come out as it went in is put aside first: markup,
delimiters of client comments, strings, comments. The lines that are left are split, spaced,
recased, indented and aligned, and the literals are put back in the reverse order. A fault at any
point ends the work, and no part of a text comes out.
-/
namespace VbTidy

/-- What the formatter is asked to do, as it is given from outside. -/
structure Settings where
  indentStyle : Text := "spaces".toList
  indentSize : Int := 4
  letterCase : Text := "proper".toList
  splitDeclarations : Bool := true
deriving Repr, DecidableEq

/-- Settings that are known to be good. -/
structure Style where
  /-- One indent. -/
  unit : Text
  letterCase : LetterCase
  splitDeclarations : Bool
deriving Repr, DecidableEq

namespace Settings

/-- The length of the longest text. -/
def longestText : Int :=
  0x7FFFFFFFFFFFFFFF

/-- The length of the longest text that memory holds. -/
def memoryLimit : Int :=
  0x200000000

/-- One indent: a tab, or as many spaces as asked for. -/
def indentUnit (s : Settings) : Except Fault Text :=
  if s.indentStyle == "tabs".toList then .ok ['\t']
  else if s.indentStyle != "spaces".toList then .error .unknownIndentStyle
  else if s.indentSize < 1 then .error .indentTooSmall
  else if longestText < s.indentSize then .error .indentTooLarge
  else if memoryLimit < s.indentSize then .error .outOfMemory
  else .ok (List.replicate s.indentSize.toNat ' ')

/-- The style that settings ask for; the indent is checked before the letter case. -/
def style (s : Settings) : Except Fault Style := do
  let unit ← s.indentUnit
  let letterCase ← LetterCase.ofName s.letterCase
  return ⟨unit, letterCase, s.splitDeclarations⟩

end Settings

/-- Counts from one run. -/
structure Stats where
  totalLines : Nat
  declarationsSplit : Nat
  maxDepth : Nat
  assignmentBlocks : Nat
  remarkBlocks : Nat
  literals : PerKind Nat
deriving Repr, DecidableEq

/-- A formatted document. -/
structure Formatted where
  text : Text
  changed : Bool
  stats : Stats
deriving Repr, DecidableEq

/-- The line break of a document: with a carriage return if it has one anywhere. -/
def newlineOf (t : Text) : Text :=
  if hasPart ['\r', '\n'] t then ['\r', '\n'] else ['\n']

/-- A document with its literals put aside. -/
structure Lifted where
  shelves : Shelves
  lines : List Text
  /-- The text left behind ends with a line feed. -/
  finalNewline : Bool
deriving Repr, DecidableEq

/-- The lines with a token of a kind for each literal. -/
def maskLines (k : Kind) (ws : List Weave) : List Text :=
  ws.map (·.replace fun _ => k.token)

/-- The literals of lines in order. -/
def literalsOf (ws : List Weave) : List Text :=
  ws.flatMap Weave.hits

/-- The literals of error phrases, each in the one spelling. -/
def resumeLiterals (ws : List Weave) : List Text :=
  (literalsOf ws).map fun _ => resumePhrase

/-- Puts the literals of a document aside, kind after kind. -/
def liftLiterals (raw : Text) : Traced Lifted := do
  Traced.note "查找客户端 VBScript 块".toList
  let fenced := fenceScripts raw
  Traced.finished .fenceScripts fenced
  Traced.note ("查找服务端 <% %> 分隔符（".toList ++
    decimal ((Pattern.literal openFence).count fenced) ++ " 个客户端块）".toList)
  let markup := cutMarkup fenced
  let text := markup.replace fun _ => Kind.markup.token
  Traced.finished .liftMarkup text
  Traced.note "查找客户端注释分隔符".toList
  let delimiters ← cutDelimiters text
  let text := delimiters.replace fun _ => Kind.delimiter.token
  Traced.finished .liftDelimiters text
  Traced.note "提取字符串与注释".toList
  let strings := (splitLines text).map cutStrings
  Traced.finishedLines .liftStrings (maskLines .string strings)
  let remarks := (maskLines .string strings).map cutRemark
  Traced.finishedLines .liftRemarks (maskLines .remark remarks)
  let resumes := (maskLines .remark remarks).map cutResume
  Traced.finishedLines .liftResume (maskLines .resume resumes)
  return {
    shelves := {
      markup := markup.hits
      delimiter := delimiters.hits
      string := literalsOf strings
      remark := literalsOf remarks
      resume := resumeLiterals resumes }
    lines := maskLines .resume resumes
    finalNewline := endsWith ['\n'] text }

/-- The working of lines between putting aside and putting back, and the counts it leaves. -/
structure Worked where
  lines : List Text
  declarationsSplit : Nat
  maxDepth : Nat
  assignmentBlocks : Nat
  remarkBlocks : Nat
deriving Repr, DecidableEq

/-- Splits, spaces, recases, indents and aligns lines. -/
def workLines (style : Style) (shelves : Shelves) (lines : List Text) : Traced Worked := do
  let single := if style.splitDeclarations then splitDeclarations lines else lines
  let split := if style.splitDeclarations then countSplit lines else 0
  if style.splitDeclarations then
    Traced.note "拆分 Dim 语句".toList
    Traced.finishedLines .splitDeclarations single
  Traced.note "调整运算符两侧空格".toList
  let spaced := single.map spaceLine
  Traced.finishedLines .spaceLines spaced
  if style.letterCase ≠ .unchanged then
    Traced.note ("修改关键字大小写: ".toList ++ style.letterCase.name)
  let recased ← recase style.letterCase spaced
  if style.letterCase ≠ .unchanged then
    Traced.finishedLines .recase recased
  Traced.note "处理缩进".toList
  let rows := nest recased
  if openDepth recased ≠ 0 then
    Traced.tell (.note .indenter
      ("文档结束时仍有 ".toList ++ decimal (openDepth recased) ++ " 层未闭合".toList))
  let indented := layOut style.unit rows
  Traced.finishedLines .indent indented
  Traced.note "对齐赋值语句与行尾注释".toList
  let assigned ← assignmentMarker.align shelves indented
  Traced.finishedLines .alignAssignments assigned
  let aligned ← remarkMarker.align shelves assigned
  Traced.finishedLines .alignRemarks aligned
  return {
    lines := aligned
    declarationsSplit := split
    maxDepth := maxDepth rows
    assignmentBlocks := (assignmentMarker.runs indented).length
    remarkBlocks := (remarkMarker.runs assigned).length }

/-- Puts the literals of a document back, kind after kind. -/
def putBackLiterals (shelves : Shelves) (newline text : Text) : Traced Text := do
  Traced.note "还原受保护内容".toList
  let text ← (shelves.shelf .resume).putBack text
  Traced.finished .putBack text
  let text ← (shelves.shelf .remark).putBack text
  Traced.finished .putBack text
  let text ← (shelves.shelf .string).putBack text
  Traced.finished .putBack text
  let text ← (shelves.shelf .delimiter).putBack text
  Traced.finished .putBack text
  let text ← (shelves.shelf .markup).putBackPadded text
  Traced.finished .putBackMarkup text
  let text := unfenceScripts newline text
  Traced.finished .unfenceScripts text
  return text

/-- Lines joined to a text, with a line break at the end if there are lines and it is asked for. -/
def closeLines (newline : Text) (finalNewline : Bool) (lines : List Text) : Text :=
  joinLines newline lines ++ if finalNewline && !lines.isEmpty then newline else []

/-- Formats a document and tells what it does. -/
def formatTraced (settings : Settings) (raw : Text) : Traced Formatted := do
  let style ← settings.style
  let newline := newlineOf raw
  let lifted ← liftLiterals raw
  let worked ← workLines style lifted.shelves lifted.lines
  let text ← putBackLiterals lifted.shelves newline
    (closeLines newline lifted.finalNewline worked.lines)
  return {
    text
    changed := text != raw
    stats := {
      totalLines := (splitLines raw).length
      declarationsSplit := worked.declarationsSplit
      maxDepth := worked.maxDepth
      assignmentBlocks := worked.assignmentBlocks
      remarkBlocks := worked.remarkBlocks
      literals := lifted.shelves.map List.length } }

/-- Formats a document. -/
def format (settings : Settings) (raw : Text) : Except Fault Formatted :=
  (formatTraced settings raw).outcome

/-- Formats a document with one settings after the other. A fault of the document or the settings
leaves the document as it was; any other fault ends the work. -/
def formatChain : Text → List Settings → Except Fault (List (Except Fault Formatted))
  | _, [] => .ok []
  | raw, s :: ss =>
    match format s raw with
    | .ok f => (formatChain f.text ss).map (.ok f :: ·)
    | .error e =>
      if e.isDocumentFault || e.isSettingsFault then (formatChain raw ss).map (.error e :: ·)
      else .error e

end VbTidy
