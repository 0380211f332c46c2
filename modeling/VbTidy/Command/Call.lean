import VbTidy.Command.Reading
import VbTidy.Command.Usage
import VbTidy.File.Path
import VbTidy.Format

/-
The program's arguments. They ask for help or the version, or for files to be formatted, or they are
refused with a complaint.
-/
namespace VbTidy

/-- The options of the program itself. -/
inductive ProgramFlag where
  | help
  | version
deriving Repr, DecidableEq

/-- The options of the formatting command. -/
inductive FormatFlag where
  | help
  | stdin
  | noRecursive
  | check
  | failFast
  | exclude
  | noBackup
  | encoding
  | quiet
  | verbose
  | indent
  | indentSize
  | keywordCase
  | noSplit
deriving Repr, DecidableEq

/-- The options of the program itself with their names. -/
def programOptions : List (OptionSpec ProgramFlag) :=
  [{ id := .help, names := ["-h", "--help"].map String.toList, shape := .final },
   { id := .version, names := ["--version"].map String.toList, shape := .final }]

/-- The options of the formatting command with their names. -/
def formatOptions : List (OptionSpec FormatFlag) :=
  [{ id := .help, names := ["-h", "--help"].map String.toList, shape := .final },
   { id := .stdin, names := ["-i", "--stdin"].map String.toList, shape := .switch },
   { id := .noRecursive, names := ["--no-recursive"].map String.toList, shape := .switch },
   { id := .check, names := ["--check"].map String.toList, shape := .switch },
   { id := .check, names := ["--dry-run"].map String.toList, shape := .switch },
   { id := .failFast, names := ["--fail-fast"].map String.toList, shape := .switch },
   { id := .exclude, names := ["--exclude"].map String.toList, shape := .word [] },
   { id := .noBackup, names := ["--no-backup"].map String.toList, shape := .switch },
   { id := .encoding, names := ["--encoding"].map String.toList, shape := .word [] },
   { id := .quiet, names := ["-q", "--quiet"].map String.toList, shape := .switch,
     rivals := [.verbose] },
   { id := .verbose, names := ["-v", "--verbose"].map String.toList, shape := .switch,
     rivals := [.quiet] },
   { id := .indent, names := ["--indent"].map String.toList,
     shape := .word (["spaces", "tabs"].map String.toList) },
   { id := .indentSize, names := ["-s", "--indent-size"].map String.toList, shape := .number },
   { id := .keywordCase, names := ["-k", "--keyword-case"].map String.toList,
     shape := .word (LetterCase.all.map LetterCase.name) },
   { id := .noSplit, names := ["-d", "--no-split-dim"].map String.toList, shape := .switch }]

/-- What the formatting command is asked to do. -/
structure Request where
  paths : List Path := []
  /-- Format standard input and write it to standard output. -/
  filter : Bool := false
  recursive : Bool := true
  /-- Only look whether anything would change. -/
  check : Bool := false
  failFast : Bool := false
  /-- The values of the options for excluded files, as far as they have one. -/
  excludes : List (Option Text) := []
  backup : Bool := true
  /-- The name of the encoding, if it has one. -/
  encoding : Option Text := some "utf-8".toList
  quiet : Bool := false
  verbose : Bool := false
  /-- The settings of the formatter; a style or a letter case without a name has the empty one. -/
  settings : Settings := {}
  /-- The option for the indent size was given without a number. -/
  noIndentSize : Bool := false
deriving Repr, DecidableEq

namespace Request

/-- A request with one option more. -/
def add (r : Request) : FormatFlag × OptionValue → Request
  | (.stdin, _) => { r with filter := true }
  | (.noRecursive, _) => { r with recursive := false }
  | (.check, _) => { r with check := true }
  | (.failFast, _) => { r with failFast := true }
  | (.exclude, .word t) => { r with excludes := r.excludes ++ [some t] }
  | (.exclude, _) => { r with excludes := r.excludes ++ [none] }
  | (.noBackup, _) => { r with backup := false }
  | (.encoding, .word t) => { r with encoding := some t }
  | (.encoding, _) => { r with encoding := none }
  | (.quiet, _) => { r with quiet := true }
  | (.verbose, _) => { r with verbose := true }
  | (.indent, .word t) => { r with settings := { r.settings with indentStyle := t } }
  | (.indent, _) => { r with settings := { r.settings with indentStyle := [] } }
  | (.indentSize, .number n) =>
    { r with settings := { r.settings with indentSize := n }, noIndentSize := false }
  | (.indentSize, _) => { r with noIndentSize := true }
  | (.keywordCase, .word t) => { r with settings := { r.settings with letterCase := t } }
  | (.keywordCase, _) => { r with settings := { r.settings with letterCase := [] } }
  | (.noSplit, _) => { r with settings := { r.settings with splitDeclarations := false } }
  | (.help, _) => r

/-- The request that arguments make; the two hyphens among the paths are not one of them. -/
def ofReading (r : Reading FormatFlag) : Request :=
  let paths := ((r.positional.getD []).erase ['-', '-']).map Path.parse
  r.options.foldl add { paths }

end Request

/-- What the arguments come to. -/
inductive Call where
  /-- A text is asked for. -/
  | tell (t : Text)
  /-- The arguments are wrong; the usage to be shown and the complaint. -/
  | refuse (usage complaint : Text)
  | format (r : Request)
deriving Repr, DecidableEq

/-- Reads what follows the name of the formatting command; `leftOver` is what was left over
before it. -/
def Call.ofFormat (leftOver args : List Text) : Call :=
  match readArguments formatOptions .group args with
  | .error (.complaint t) => .refuse formatUsage t
  | .error (.final _) => .tell (formatUsage ++ formatDetails)
  | .ok reading =>
    let request := Request.ofReading reading
    match leftOver ++ reading.leftOver with
    | [] =>
      if request.paths.isEmpty && !request.filter then
        .refuse programUsage "the following arguments are required: PATH".toList
      else .format request
    | unknown =>
      .refuse programUsage ("unrecognized arguments: ".toList ++ [' '].intercalate unknown)

/-- Reads the arguments of the program. -/
def Call.ofArguments (args : List Text) : Call :=
  match readArguments programOptions .rest args with
  | .error (.complaint t) => .refuse programUsage t
  | .error (.final .help) => .tell (programUsage ++ programDetails)
  | .error (.final .version) => .tell versionText
  | .ok reading =>
    match reading.positional.getD [] with
    | [] => .refuse programUsage "the following arguments are required: CMD".toList
    | command :: args =>
      if command == "format".toList then Call.ofFormat reading.leftOver args
      else
        .refuse programUsage ("argument CMD: invalid choice: ".toList ++ quoted command ++
          " (choose from 'format')".toList)

end VbTidy
