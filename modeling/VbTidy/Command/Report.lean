import VbTidy.File.Path
import VbTidy.Format

/-
What the program prints: notes on progress, counts, a line per file and a summary.
-/
namespace VbTidy

/-- What became of a file. -/
inductive Status where
  | fine
  | changed
  | wouldChange
  | failed (message : Text)
deriving Repr, DecidableEq

/-- Whether a file failed. -/
def Status.isFailed : Status → Bool
  | failed _ => true
  | _ => false

/-- A file with what became of it. -/
structure FileReport where
  path : Path
  status : Status
deriving Repr, DecidableEq

/-- The line on a file. -/
def FileReport.line (r : FileReport) : Text :=
  match r.status with
  | .fine => "正常      ".toList ++ r.path.text ++ ['\n']
  | .changed => "已修改    ".toList ++ r.path.text ++ ['\n']
  | .wouldChange => "待修改    ".toList ++ r.path.text ++ ['\n']
  | .failed message => "失败      ".toList ++ r.path.text ++ "  (".toList ++ message ++ ")\n".toList

/-- The lines on files; a quiet report has those that failed only. -/
def reportLines (quiet : Bool) (reports : List FileReport) : Text :=
  (reports.filter fun r => !quiet || r.status.isFailed).flatMap FileReport.line

/-- The line with the numbers of files by what became of them. -/
def summaryLine (reports : List FileReport) : Text :=
  let count (p : Status → Bool) : Text := decimal (reports.countP (p ·.status))
  "汇总: 已修改=".toList ++ count (· == .changed) ++ " 正常=".toList ++ count (· == .fine) ++
    " 待修改=".toList ++ count (· == .wouldChange) ++ " 失败=".toList ++ count Status.isFailed ++ ['\n']

/-- A truth value in a note. -/
def truthText (b : Bool) : Text :=
  if b then "True".toList else "False".toList

/-- One entry of the counts. -/
def countEntry (name : Text) (value : Text) : Text :=
  quoted name ++ ": ".toList ++ value

/-- Entries between braces. -/
def braced (entries : List Text) : Text :=
  '\x7b' :: ", ".toList.intercalate entries ++ ['\x7d']

/-- The counts of a run. Counts of splits and blocks are left out when they are zero. -/
def Stats.text (s : Stats) : Text :=
  let always (name : String) (n : Nat) : List Text := [countEntry name.toList (decimal n)]
  let counted (name : String) (n : Nat) : List Text := if n == 0 then [] else always name n
  braced (always "total_lines" s.totalLines ++ counted "declarations_split" s.declarationsSplit ++
    always "max_depth" s.maxDepth ++ counted "assignment_blocks" s.assignmentBlocks ++
    counted "comment_blocks" s.remarkBlocks ++
    [countEntry "regions".toList (braced (Kind.backOrder.map fun k =>
      countEntry k.name (decimal (s.literals.get k))))])

/-- The name under which a part of the program tells its notes. -/
def Speaker.label : Speaker → Text
  | formatter => "vbsfmt.formatter".toList
  | indenter => "vbsfmt.indent".toList

/-- The line of a note. -/
def Event.line : Event → Text
  | note speaker t => "DEBUG ".toList ++ speaker.label ++ ": ".toList ++ t ++ ['\n']
  | finished .. => []

/-- The notes of a run. -/
def noteLines (events : List Event) : Text :=
  events.flatMap Event.line

end VbTidy
