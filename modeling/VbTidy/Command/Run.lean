import VbTidy.Command.Call
import VbTidy.Command.Complaint
import VbTidy.Command.Report
import VbTidy.File.Save
import VbTidy.File.Search

/-
A run of the program. Files are worked on one after the other; one that cannot be read or formatted
is reported and left as it is. A word outside the vocabulary and an unknown encoding end the run at
once, without a report.
-/
namespace VbTidy

/-- What a run finds outside the program. -/
structure World where
  tree : Tree
  /-- The directory that paths are seen from. -/
  cwd : Place
  /-- Standard input. -/
  input : Text
  /-- The time, as it stands in names of copies. -/
  stamp : Text
  /-- The process, as it stands in names of drafts. -/
  process : Text
deriving Repr, DecidableEq

/-- What ends a run at once. -/
inductive Crash where
  | fault (f : Fault)
  | unknownEncoding (name : Text)
  /-- The name of an encoding has a NUL character in it. -/
  | nulInEncoding
  /-- An option for an encoding has no name. -/
  | noEncoding
  /-- An option for an indent of spaces has no number. -/
  | noIndentSize
  /-- An option for excluded files has no pattern. -/
  | noPattern
  | nameTooLong (e : NameTooLong)
deriving Repr, DecidableEq

/-- The text by which it is told. -/
def Crash.message : Crash → Text
  | fault f => f.message
  | unknownEncoding name => "unknown encoding: ".toList ++ name
  | nulInEncoding => "embedded null character".toList
  | noEncoding => "open() argument 'encoding' must be str or None, not list".toList
  | noIndentSize => "'<' not supported between instances of 'list' and 'int'".toList
  | noPattern => "'list' object has no attribute 'split'".toList
  | nameTooLong e => e.message

/-- How a run ends. -/
inductive Ending where
  | exit (code : Nat)
  | crash (c : Crash)
deriving Repr, DecidableEq

/-- What a run leaves: what it printed, the files, and how it ended. -/
structure Outcome where
  output : Text
  errors : Text
  tree : Tree
  ending : Ending
deriving Repr, DecidableEq

/-- A text with a line feed for each line break of any form. -/
def unifyNewlines : Text → Text
  | [] => []
  | '\r' :: '\n' :: t => '\n' :: unifyNewlines t
  | c :: t => (if c == '\r' then '\n' else c) :: unifyNewlines t

/-- The state of a run over files. -/
structure Progress where
  tree : Tree
  output : Text
  errors : Text
  reports : List FileReport
deriving Repr, DecidableEq

namespace Progress

/-- Adds the report on a file. -/
def report (p : Progress) (path : Path) (status : Status) : Progress :=
  { p with reports := p.reports ++ [⟨path, status⟩] }

/-- Whether some file failed so far. -/
def anyFailed (p : Progress) : Bool :=
  p.reports.any (·.status.isFailed)

end Progress

/-- Writes a formatted file back, after a copy of it if that is asked for. The draft is opened
before the text is encoded: if the encoding has no bytes for the text, it stays behind empty. -/
def saveFile (w : World) (r : Request) (encoding : Encoding) (path : Path) (at_ : Place)
    (text : Text) (p : Progress) : Progress :=
  match if r.backup then p.tree.backup w.stamp path at_ else .ok p.tree with
  | .error f => p.report path (.failed f.message)
  | .ok tree =>
    match tree.draftFault w.process path at_ with
    | some f => { p with tree }.report path (.failed f.message)
    | none =>
      match encoding.encode text with
      | .error f =>
        { p with tree := tree.write (at_.beside (draftName w.process at_.name)) [] }.report path
          (.failed f.message)
      | .ok content =>
        { p with tree := tree.replace w.process at_ content }.report path .changed

/-- Goes on with a file that has been formatted. -/
def finishFile (w : World) (r : Request) (encoding : Encoding) (path : Path) (at_ : Place)
    (f : Formatted) (p : Progress) : Progress :=
  let p :=
    if r.verbose then
      { p with output := p.output ++ "信息      ".toList ++ path.text ++ "  stats=".toList ++
        f.stats.text ++ ['\n'] }
    else p
  if !f.changed then p.report path .fine
  else if r.check then p.report path .wouldChange
  else saveFile w r encoding path at_ f.text p

/-- Works on one file that is there. -/
def runBytes (w : World) (r : Request) (encoding : Encoding) (path : Path) (at_ : Place)
    (bytes : Bytes) (p : Progress) : Progress × Option Crash :=
  match encoding.decode bytes with
  | .error f => (p.report path (.failed f.message), none)
  | .ok raw =>
    let traced := formatTraced r.settings raw
    let p := if r.verbose then { p with errors := p.errors ++ noteLines traced.events } else p
    match traced.outcome with
    | .ok f => (finishFile w r encoding path at_ f p, none)
    | .error f =>
      if f.isDocumentFault then (p.report path (.failed f.message), none)
      else (p, some (.fault f))

/-- The encoding that a request asks for. -/
def Request.codec (r : Request) : Except Crash Encoding :=
  match r.encoding with
  | none => .error .noEncoding
  | some name =>
    if name.contains '\x00' then .error .nulInEncoding
    else
      match Encoding.ofName? name with
      | none => .error (.unknownEncoding name)
      | some e => .ok e

/-- Works on one file. -/
def runFile (w : World) (r : Request) (path : Path) (p : Progress) : Progress × Option Crash :=
  match r.codec with
  | .error c => (p, some c)
  | .ok encoding =>
    match p.tree.locate w.cwd path with
    | .place at_ =>
      match p.tree.read? at_ with
      | some bytes => runBytes w r encoding path at_ bytes p
      | none => (p.report path (.failed (missingText path)), none)
    | _ => (p.report path (.failed (missingText path)), none)
where
  /-- How it is told that a file is gone. -/
  missingText (path : Path) : Text :=
    "[Errno 2] No such file or directory: ".toList ++ quoted path.text

/-- Works on files in order, up to the first failure if that is asked for. -/
def runFiles (w : World) (r : Request) : List Path → Progress → Progress × Option Crash
  | [], p => (p, none)
  | path :: paths, p =>
    if p.anyFailed && r.failFast then (p, none)
    else
      match runFile w r path p with
      | (p, some c) => (p, some c)
      | (p, none) => runFiles w r paths p

/-- How directories are searched for a request. -/
def Request.search (r : Request) : Except Crash Search :=
  match r.excludes.mapM id with
  | none => .error .noPattern
  | some values =>
    .ok { recursive := r.recursive, excludes := standardExcludes ++ splitPatterns values }

/-- What the paths of a request stand for. -/
def Request.targets (w : World) (r : Request) : Except Crash Targets := do
  let search ← r.search
  (VbTidy.targets w.tree w.cwd search r.paths).mapError .nameTooLong

/-- The exit code of a run that reported on files. -/
def exitCode (r : Request) (reports : List FileReport) : Nat :=
  if reports.any (·.status.isFailed) then 2
  else if r.check && reports.any (·.status == .wouldChange) then 1
  else 0

/-- The note on what a request asks for. -/
def Request.note (r : Request) (files : Nat) : Text :=
  "信息      paths=".toList ++ decimal r.paths.length ++ " recursive=".toList ++
    truthText r.recursive ++ " files=".toList ++ decimal files ++ " encoding=".toList ++
    r.encoding.getD "[]".toList ++ " backup=".toList ++ truthText r.backup ++ ['\n']

/-- Formats the files that a request names. -/
def runRequest (w : World) (r : Request) : Outcome :=
  match r.targets w with
  | .error c => ⟨[], [], w.tree, .crash c⟩
  | .ok found =>
    let note := if r.verbose then r.note found.files.length else []
    let missing := found.missing.map fun m => ⟨m, .failed "不存在".toList⟩
    match runFiles w r found.files ⟨w.tree, note, [], missing⟩ with
    | (p, some c) => ⟨p.output, p.errors, p.tree, .crash c⟩
    | (p, none) =>
      ⟨p.output ++ reportLines r.quiet p.reports ++ summaryLine p.reports, p.errors, p.tree,
        .exit (exitCode r p.reports)⟩

/-- Formats standard input. -/
def runFilter (w : World) (r : Request) : Outcome :=
  let traced := formatTraced r.settings (unifyNewlines w.input)
  let notes := if r.verbose then noteLines traced.events else []
  match traced.outcome with
  | .error f =>
    if f.isDocumentFault then
      ⟨[], notes ++ "错误: ".toList ++ f.message ++ ['\n'], w.tree, .exit 2⟩
    else ⟨[], notes, w.tree, .crash (.fault f)⟩
  | .ok f =>
    let notes :=
      if r.verbose then notes ++ "信息      stats=".toList ++ f.stats.text ++ ['\n'] else notes
    if r.check then ⟨[], notes, w.tree, .exit (if f.changed then 1 else 0)⟩
    else ⟨f.text, notes, w.tree, .exit 0⟩

/-- Does what a request asks for, once its settings are seen to be good. -/
def runFormat (w : World) (r : Request) : Outcome :=
  if r.noIndentSize && r.settings.indentStyle == "spaces".toList then
    ⟨[], [], w.tree, .crash .noIndentSize⟩
  else
    match r.settings.indentUnit with
    | .error f =>
      if f.isSettingsFault then ⟨[], "错误: ".toList ++ f.message ++ ['\n'], w.tree, .exit 2⟩
      else ⟨[], [], w.tree, .crash (.fault f)⟩
    | .ok _ => if r.filter then runFilter w r else runRequest w r

/-- Runs the program with arguments. -/
def run (w : World) (args : List Text) : Outcome :=
  match Call.ofArguments args with
  | .tell t => ⟨t, [], w.tree, .exit 0⟩
  | .refuse usage t => ⟨[], usage ++ complaintText t, w.tree, .exit 2⟩
  | .format r => runFormat w r

end VbTidy
