import VbTidy.File.Tree

/-
Saving of files. Before a file is written over, a copy of it is put beside it under a name with the
time; the new content is written beside the file first and then moved to its place.
-/
namespace VbTidy

/-- A file name with a mark before its suffix. -/
def markedName (mark : Text) (name : Text) : Text :=
  let (stem, suffix) := splitSuffix name
  stem ++ mark ++ suffix

/-- The name of the copy of a file at a time. -/
def backupName (stamp name : Text) : Text :=
  markedName (".bak.".toList ++ stamp) name

/-- The name of a file that is being written by a process. -/
def draftName (process name : Text) : Text :=
  markedName (".tmp.".toList ++ process) name

/-- The place beside another under another name. -/
def Place.beside (at_ : Place) (name : Text) : Place :=
  at_.dropLast ++ [name]

/-- The name of the file at a place. -/
def Place.name (at_ : Place) : Text :=
  at_.getLast?.getD []

/-- Why a file cannot be written. -/
inductive SaveFault where
  /-- Its name is too long. -/
  | tooLong (e : NameTooLong)
  /-- There is a directory of its name. -/
  | folder (path : Text)
deriving Repr, DecidableEq

/-- The text by which it is told. -/
def SaveFault.message : SaveFault → Text
  | tooLong e => e.message
  | folder path => "[Errno 21] Is a directory: ".toList ++ quoted path

namespace Tree

/-- Copies a file beside it. Where its copy would be is a directory, the copy goes into that. -/
def backup (tree : Tree) (stamp : Text) (path : Path) (at_ : Place) : Except SaveFault Tree :=
  match tree.read? at_ with
  | none => .ok tree
  | some content =>
    let name := backupName stamp at_.name
    let copy := at_.beside name
    if longestName < byteLength name then .error (.tooLong ⟨path.withName name⟩)
    else if tree.isFolder copy then
      let inner := copy ++ [at_.name]
      if tree.isFolder inner then .error (.folder ((path.withName name).text ++ '/' :: at_.name))
      else .ok (tree.write inner content)
    else .ok (tree.write copy content)

/-- Why the draft of a file cannot be opened. -/
def draftFault (tree : Tree) (process : Text) (path : Path) (at_ : Place) : Option SaveFault :=
  let name := draftName process at_.name
  if longestName < byteLength name then some (.tooLong ⟨path.withName name⟩)
  else if tree.isFolder (at_.beside name) then some (.folder (path.withName name).text)
  else none

/-- Writes a file by way of a draft beside it. -/
def replace (tree : Tree) (process : Text) (at_ : Place) (content : Bytes) : Tree :=
  let draft := at_.beside (draftName process at_.name)
  (tree.write draft content).move draft at_

end Tree

end VbTidy
