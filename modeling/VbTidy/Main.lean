import Std.Time.Format
import VbTidy.Command.Run

/-
The program. It takes a picture of the files that the arguments name, runs on that, and brings the
files on disk to the state that the run leaves. All decisions are made by `run`.
-/
namespace VbTidy

/-- The path of a place as the system wants it. -/
def Place.systemPath (at_ : Place) : String :=
  String.ofList at_.path.text

/-- Whether a place is a directory on disk. -/
def Place.isFolderOnDisk (at_ : Place) : IO Bool := do
  ((← IO.currentDir) / at_.systemPath).isDir

/-- Adds a file on disk to a tree. -/
def pictureFile (tree : Tree) (at_ : Place) : IO Tree := do
  return tree.write at_ (← IO.FS.readBinFile at_.systemPath).toList

/-- Adds a directory on disk and the script files below it to a tree. -/
partial def pictureFolder (tree : Tree) (at_ : Place) : IO Tree := do
  let tree := { tree with folders := at_ :: tree.folders }
  let entries ← ((← IO.currentDir) / at_.systemPath).readDir
  entries.foldlM (fun tree entry => do
    let inner := at_ ++ [entry.fileName.toList]
    if ← entry.path.isDir then pictureFolder tree inner
    else if hasSuffix scriptSuffixes entry.fileName.toList then pictureFile tree inner
    else return tree) tree

/-- Adds what a path leads to on disk, and the directories on the way, to a tree. -/
def picturePath (cwd : Place) (tree : Tree) (p : Path) : IO Tree :=
  follow (if p.lead.isEmpty then cwd else []) tree p.names
where
  follow (at_ : Place) (tree : Tree) : List Text → IO Tree
    | [] => do
      if ← at_.isFolderOnDisk then pictureFolder tree at_
      else if ← ((← IO.currentDir) / at_.systemPath).pathExists then pictureFile tree at_
      else return tree
    | n :: ns => do
      if ← at_.isFolderOnDisk then
        follow (if n == ['.', '.'] then at_.dropLast else at_ ++ [n])
          { tree with folders := at_ :: tree.folders } ns
      else return tree

/-- What stands on a stream up to its end. -/
partial def readAll (stream : IO.FS.Stream) (sofar : ByteArray) : IO ByteArray := do
  let more ← stream.read 65536
  if more.isEmpty then return sofar else readAll stream (sofar ++ more)

/-- Standard input as a text. -/
def readInput : IO Text := do
  match Encoding.utf8.decode (← readAll (← IO.getStdin) .empty).toList with
  | .ok t => return t
  | .error f => throw (IO.userError (String.ofList f.message))

/-- The world that arguments let a run see. -/
def takePicture (args : List Text) : IO World := do
  let cwd := (Path.parse (← IO.currentDir).toString.toList).names
  let (paths, filter) :=
    match Call.ofArguments args with
    | .format r => if r.filter then ([], true) else (r.paths, false)
    | _ => ([], false)
  return {
    tree := ← paths.foldlM (picturePath cwd) ⟨[], [cwd]⟩
    cwd
    input := ← if filter then readInput else pure []
    stamp := ((← Std.Time.PlainDateTime.now).format "uuuuMMdd-HHmmss").toList
    process := decimal (← IO.rand 1 99999) }

/-- Writes the files of a tree that differ from another. New files come first, so that a copy is
there before its file is written over. -/
def saveChanges (before after : Tree) : IO Unit := do
  let (old, new) := after.files.partition fun f => before.isFile f.1
  for (at_, content) in new ++ old do
    if before.read? at_ != some content then
      IO.FS.writeBinFile at_.systemPath ⟨content.toArray⟩

end VbTidy

open VbTidy in
/-- Runs the program with the arguments of the command line. -/
def main (args : List String) : IO UInt32 := do
  let args := args.map String.toList
  let world ← takePicture args
  let outcome := run world args
  saveChanges world.tree outcome.tree
  IO.print (String.ofList outcome.output)
  IO.eprint (String.ofList outcome.errors)
  match outcome.ending with
  | .exit code => return UInt32.ofNat code
  | .crash c =>
    IO.eprintln (String.ofList c.message)
    return 1
