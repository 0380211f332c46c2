import VbTidy.Proofs.Visits

/-
The program's own files. Copies and drafts keep the suffix of the file they stand for, so a search
would take them for scripts; only the standard patterns keep it from them.

What is proved:
  1. `fitsParts_star`, `fitsParts_char`: what a list of parts fits, part by part. A pattern for a
     mark fits every path with the mark in it, however many points and slashes there are besides
     (`excluded_of_marked`).
  2. `found_write`, `found_remove`: a search finds the same files in a tree after a write over a file
     and after changes at places that it never finds. A replaced file and its copy are made of
     these (`found_replace`, `found_backup`).
  3. `own_files_unfound`: the copies and drafts of all files are excluded, and a run over a
     directory, with whatever options and however it ends, leaves the search of the directory with
     the files it found before; by induction over the files (`runFiles_found`).
-/
namespace VbTidy

/-! ## What a pattern fits -/

/-- For each end of a list of parts, whether it fits a text. -/
def fitRow (ps : List GlobPart) (t : Text) : List Bool :=
  t.foldr (nextRow · ps) (emptyRow ps)

theorem fitRow_cons (p : GlobPart) (ps : List GlobPart) (t : Text) :
    fitRow (p :: ps) t = fitsParts (p :: ps) t :: fitRow ps t := by
  induction t with
  | nil => rfl
  | cons c t ih =>
    have hstep : fitRow (p :: ps) (c :: t) =
        fitsParts (p :: ps) (c :: t) :: nextRow c ps (fitRow (p :: ps) t).tail := rfl
    rw [hstep, ih, List.tail_cons]
    rfl

theorem fitsParts_star_cons (ps : List GlobPart) (c : Char) (t : Text) :
    fitsParts (.star :: ps) (c :: t) = (fitsParts ps (c :: t) || fitsParts (.star :: ps) t) := by
  have hstep : fitsParts (.star :: ps) (c :: t) =
      ((nextRow c ps (fitRow (.star :: ps) t).tail).headD false ||
        (fitRow (.star :: ps) t).headD false) := rfl
  rw [hstep, fitRow_cons]
  rfl

/-- A star stands for any text in front of what the other parts fit. -/
theorem fitsParts_star {ps : List GlobPart} {t : Text} :
    fitsParts (.star :: ps) t = true ↔ ∃ s, s <:+ t ∧ fitsParts ps s = true := by
  induction t with
  | nil =>
    have h : fitsParts (.star :: ps) [] = fitsParts ps [] := rfl
    simp [h]
  | cons c t ih =>
    rw [fitsParts_star_cons, Bool.or_eq_true, ih]
    constructor
    · rintro (h | ⟨s, hs, h⟩)
      · exact ⟨_, List.suffix_rfl, h⟩
      · exact ⟨s, hs.trans (List.suffix_cons c t), h⟩
    · rintro ⟨s, hs, h⟩
      rcases List.suffix_cons_iff.mp hs with rfl | hs
      · exact .inl h
      · exact .inr ⟨s, hs, h⟩

/-- A character stands for itself. -/
theorem fitsParts_char (ps : List GlobPart) (c d : Char) (t : Text) :
    fitsParts (.char c :: ps) (d :: t) = (d == c && fitsParts ps t) := by
  have hstep : fitsParts (.char c :: ps) (d :: t) =
      (d == c && (fitRow (.char c :: ps) t).tail.headD false) := rfl
  rw [hstep, fitRow_cons]
  rfl

theorem fitsParts_word (ps : List GlobPart) (w t : Text) :
    fitsParts (w.map .char ++ ps) (w ++ t) = fitsParts ps t := by
  induction w with
  | nil => rfl
  | cons c w ih =>
    rw [List.map_cons, List.cons_append, List.cons_append, fitsParts_char, ih, beq_self_eq_true,
      Bool.true_and]

/-! ## Marked names -/

/-- What stands in the names of copies, and in those of drafts. -/
def ownMarks : List Text :=
  [".bak.", ".tmp."].map String.toList

/-- A text with the mark of a copy or a draft in it. -/
def Marked (t : Text) : Prop :=
  ∃ mark ∈ ownMarks, mark <:+: t

theorem Marked.of_infix {s t : Text} (h : Marked s) (hst : s <:+: t) : Marked t := by
  obtain ⟨mark, hmem, hmark⟩ := h
  exact ⟨mark, hmem, hmark.trans hst⟩

theorem marked_markedName {mark : Text} (hmem : mark ∈ ownMarks) (part name : Text) :
    Marked (markedName (mark ++ part) name) := by
  refine ⟨mark, hmem, (splitSuffix name).1, part ++ (splitSuffix name).2, ?_⟩
  simp [markedName]

theorem marked_backupName (stamp name : Text) : Marked (backupName stamp name) :=
  marked_markedName (by decide) stamp name

theorem marked_draftName (process name : Text) : Marked (draftName process name) :=
  marked_markedName (by decide) process name

/-- The standard patterns exclude what has a mark, wherever it stands. -/
theorem excluded_of_marked {relative : Text} (h : Marked relative) :
    standardExcludes.any (excludedBy relative) = true := by
  obtain ⟨mark, hmem, a, b, rfl⟩ := h
  have hfits : fitsParts (.star :: .char '/' :: .star :: (mark.map .char ++ [.star]))
      ('/' :: (a ++ mark ++ b)) = true := by
    refine fitsParts_star.mpr ⟨_, List.suffix_rfl, ?_⟩
    rw [fitsParts_char, beq_self_eq_true, Bool.true_and]
    refine fitsParts_star.mpr ⟨mark ++ b, ⟨a, by simp⟩, ?_⟩
    rw [fitsParts_word]
    exact fitsParts_star.mpr ⟨[], List.nil_suffix, rfl⟩
  -- each mark has a pattern, which says: a slash, and the mark anywhere behind it
  have hpatterns : ∀ mark ∈ ownMarks, ∃ pattern ∈ standardExcludes,
      trim pattern = pattern ∧ pattern.isEmpty = false ∧
        Glob.parts pattern = .star :: .char '/' :: .star :: (mark.map .char ++ [.star]) := by
    decide
  obtain ⟨pattern, hpattern, htrim, hne, hparts⟩ := hpatterns mark hmem
  refine List.any_eq_true.mpr ⟨pattern, hpattern, ?_⟩
  have hslash : fitsGlob pattern ('/' :: (a ++ mark ++ b)) = true := by rw [fitsGlob, hparts, hfits]
  rw [excludedBy, htrim, hne, hslash]
  simp

/-- A path has the mark of each of its names. -/
theorem marked_text {names : List Text} {n : Text} (h : n ∈ names) (hn : Marked n) :
    Marked (Path.text ⟨[], names⟩) := by
  have hbare : n <:+: Path.bare ⟨[], names⟩ := infix_intercalate h
  have hne : Path.bare ⟨[], names⟩ ≠ [] := by
    obtain ⟨mark, hmem, hmark⟩ := hn.of_infix hbare
    intro hnil
    rw [hnil, List.infix_nil] at hmark
    subst hmark
    exact absurd hmem (by decide)
  rw [Path.text, if_neg (by simpa using hne)]
  exact hn.of_infix hbare

/-! ## Paths and places below a directory -/

/-- A path below another, and not that path itself. -/
def Path.Below (root p : Path) : Prop :=
  p.lead = root.lead ∧ root.names <+: p.names ∧ root.names ≠ p.names

/-- What stands beside a path below a directory, under a marked name, is excluded there. -/
theorem isExcluded_of_marked {root p : Path} {n : Text} (h : root.Below p) (hn : Marked n) :
    isExcluded (p.withName n) root standardExcludes = .ok true := by
  obtain ⟨hlead, habove⟩ := h
  obtain ⟨_, names, hdir⟩ := Tree.above_iff.mp habove
  have hnames : (p.withName n).names = root.names ++ (names ++ [n]) := by
    rw [Path.withName, ← hdir, List.append_assoc]
  have hbelow : (p.withName n).relativeTo root = .ok ⟨[], names ++ [n]⟩ := by
    rw [Path.relativeTo, hnames, List.drop_left, if_pos]
    simp [Path.withName, hlead]
  rw [isExcluded, hbelow]
  exact congrArg Except.ok (excluded_of_marked (marked_text (by simp) hn))

/-- Names without two points in a row lead on to the place that is put together from them. -/
theorem Tree.follow_names {tree : Tree} {names : List Text} (h : ['.', '.'] ∉ names)
    {start y : Place} (hplace : tree.follow start names = .place y) : y = start ++ names := by
  induction names generalizing start with
  | nil =>
    rw [follow] at hplace
    rw [List.append_nil]
    exact (Whereabouts.place.inj hplace).symm
  | cons n names ih =>
    rw [List.mem_cons, not_or] at h
    have hup : (n == ['.', '.']) = false := beq_eq_false_iff_ne.mpr (Ne.symm h.1)
    rw [follow, hup] at hplace
    split at hplace
    · cases hplace
    · split at hplace
      · cases hplace
      · rw [ih h.2 hplace]
        simp

theorem Tree.locate_path {tree : Tree} {cwd at_ y : Place} (h : ['.', '.'] ∉ at_)
    (hplace : tree.locate cwd at_.path = .place y) : y = at_ := by
  rw [locate] at hplace
  split at hplace
  · cases hplace
  · exact tree.follow_names h hplace

section
variable {s : Search} (hs : ∀ pattern ∈ standardExcludes, pattern ∈ s.excludes)
include hs

/-- No search finds a place with a marked name behind the directory. -/
theorem not_finds {root dir : Place} {n : Text} (hn : Marked n) (hdir : root <+: dir)
    (more : Place) : s.finds root (dir ++ n :: more) = false := by
  obtain ⟨between, rfl⟩ := hdir
  have hmem : n ∈ between ++ n :: more := by simp
  obtain ⟨pattern, hpattern, hexcluded⟩ :=
    List.any_eq_true.mp (excluded_of_marked (marked_text hmem hn))
  have hany : s.excludes.any (excludedBy (Path.text ⟨[], between ++ n :: more⟩)) = true :=
    List.any_eq_true.mpr ⟨pattern, hs pattern hpattern, hexcluded⟩
  rw [Search.finds, List.append_assoc, List.drop_left, Search.takes, hany]
  simp

end

/-! ## What a search finds in a tree that is written to -/

theorem Tree.places_write (tree : Tree) (x : Place) (content : Bytes) :
    (tree.write x content).places = if x ∈ tree.places then tree.places else tree.places ++ [x] := by
  rw [places, places, write]
  dsimp only
  induction tree.files with
  | nil => simp [put]
  | cons f fs ih =>
    rw [put]
    by_cases hkey : f.1 = x
    · rw [if_pos (by simpa using hkey), List.map_cons, List.map_cons, hkey,
        if_pos List.mem_cons_self]
    · have hmem : x ∈ f.1 :: fs.map Prod.fst ↔ x ∈ fs.map Prod.fst := by
        rw [List.mem_cons, or_iff_right (Ne.symm hkey)]
      rw [if_neg (by simpa using hkey), List.map_cons, List.map_cons, ih]
      by_cases hx : x ∈ fs.map Prod.fst
      · rw [if_pos hx, if_pos (hmem.mpr hx)]
      · rw [if_neg hx, if_neg (fun h => hx (hmem.mp h)), List.cons_append]

/-- The places that a search finds below a directory, in the order of the tree. -/
def Tree.found (tree : Tree) (s : Search) (root : Place) : List Place :=
  tree.places.filter (s.finds root)

namespace Tree
variable {tree : Tree} {s : Search} {root x : Place}

/-- A file that is written over is there already, and what no search finds does not matter. -/
theorem found_write (h : tree.isFile x = true ∨ s.finds root x = false) (content : Bytes) :
    (tree.write x content).found s root = tree.found s root := by
  rw [found, places_write]
  split
  · rfl
  · next hx =>
    rw [mem_places_iff] at hx
    rw [List.filter_append, List.filter_singleton, h.resolve_left hx]
    exact List.append_nil _

theorem found_remove (h : s.finds root x = false) :
    (tree.remove x).found s root = tree.found s root := by
  have hplaces : (tree.remove x).places = tree.places.filter (· != x) := by
    rw [places, places, List.filter_map]
    rfl
  rw [found, hplaces, List.filter_filter]
  refine List.filter_congr fun y _ => ?_
  by_cases hy : y = x
  · rw [hy, h, Bool.false_and]
  · rw [bne_iff_ne.mpr hy, Bool.and_true]

variable (hs : ∀ pattern ∈ standardExcludes, pattern ∈ s.excludes) {at_ : Place}
  (hfile : tree.isFile at_ = true) (hbelow : root <+: at_.dropLast)
include hs hfile hbelow

theorem found_replace (process : Text) (content : Bytes) :
    (tree.replace process at_ content).found s root = tree.found s root := by
  have hdraft : s.finds root (at_.beside (draftName process at_.name)) = false :=
    not_finds hs (marked_draftName process at_.name) hbelow []
  have hother : at_ ≠ at_.beside (draftName process at_.name) :=
    (at_.beside_marked_ne (by simp)).symm
  rw [replace_eq, found_write, found_remove hdraft, found_write (.inr hdraft)]
  left
  rw [isFile, read?_remove, if_neg hother, read?_write, if_neg hother]
  exact hfile

theorem found_backup {stamp : Text} {path : Path} {tree' : Tree}
    (h : tree.backup stamp path at_ = .ok tree') :
    tree'.found s root = tree.found s root ∧ tree'.isFile at_ = true := by
  have hmark := marked_backupName stamp at_.name
  obtain ⟨old, hread⟩ := Option.isSome_iff_exists.mp hfile
  rw [backup, hread] at h
  dsimp only at h
  split at h
  · cases h
  · split at h
    · -- the copy goes into the directory that has its name, which is marked as well
      split at h
      · cases h
      · obtain rfl := Except.ok.inj h
        refine ⟨found_write (.inr ?_) old, isFile_write hfile _ old⟩
        rw [Place.beside, List.append_assoc]
        exact not_finds hs hmark hbelow [at_.name]
    · obtain rfl := Except.ok.inj h
      exact ⟨found_write (.inr (not_finds hs hmark hbelow [])) old, isFile_write hfile _ old⟩

end Tree

/-! ## What a run leaves to find -/

section
variable {w : World} {r : Request} {s : Search} {root at_ : Place}
  (hs : ∀ pattern ∈ standardExcludes, pattern ∈ s.excludes)
include hs

section
variable {p : Progress} (hfile : p.tree.isFile at_ = true) (hbelow : root <+: at_.dropLast)
include hfile hbelow

theorem saveFile_found (encoding : Encoding) (path : Path) (text : Text) :
    (saveFile w r encoding path at_ text p).tree.found s root = p.tree.found s root := by
  rw [saveFile]
  cases hcopy : (if r.backup then p.tree.backup w.stamp path at_ else .ok p.tree) with
  | error f => rfl
  | ok tree =>
    have hkept : tree.found s root = p.tree.found s root ∧ tree.isFile at_ = true := by
      split at hcopy
      · exact Tree.found_backup hs hfile hbelow hcopy
      · obtain rfl := Except.ok.inj hcopy
        exact ⟨rfl, hfile⟩
    obtain ⟨hfound, hstill⟩ := hkept
    rw [← hfound]
    dsimp only
    split
    · rfl
    · split
      · exact Tree.found_write (.inr (not_finds hs (marked_draftName _ _) hbelow [])) []
      · exact Tree.found_replace hs hstill hbelow w.process _

theorem finishFile_found (encoding : Encoding) (path : Path) (f : Formatted) :
    (finishFile w r encoding path at_ f p).tree.found s root = p.tree.found s root := by
  obtain ⟨p', ⟨_, htree, _⟩, hfinish⟩ := finishFile_eq w r encoding path at_ f p
  rw [hfinish, ← htree]
  rw [← htree] at hfile
  split
  · rfl
  · split
    · rfl
    · exact saveFile_found hs hfile hbelow encoding path f.text

theorem runBytes_found (encoding : Encoding) (path : Path) (bytes : Bytes) :
    (runBytes w r encoding path at_ bytes p).1.tree.found s root = p.tree.found s root := by
  cases hdecode : encoding.decode bytes with
  | error f =>
    rw [runBytes, hdecode]
    rfl
  | ok raw =>
    obtain ⟨p', ⟨_, htree, _⟩, hok, herror⟩ := runBytes_eq w r path at_ p hdecode
    rw [← htree]
    rw [← htree] at hfile
    cases hformat : format r.settings raw with
    | ok f =>
      rw [hok f hformat]
      exact finishFile_found hs hfile hbelow encoding path f
    | error f =>
      rw [herror f hformat]
      split
      · rfl
      · rfl

end

/-- Work on a file below the directory, whatever comes of it, leaves the same files to find. -/
theorem runFile_found (hup : ['.', '.'] ∉ at_) (hbelow : root <+: at_.dropLast) (p : Progress) :
    (runFile w r at_.path p).1.tree.found s root = p.tree.found s root := by
  rw [runFile]
  cases r.codec with
  | error c => rfl
  | ok encoding =>
    dsimp only
    cases hplace : p.tree.locate w.cwd at_.path with
    | missing => rfl
    | tooLong => rfl
    | place y =>
      obtain rfl := Tree.locate_path hup hplace
      dsimp only
      cases hread : p.tree.read? y with
      | none => rfl
      | some bytes =>
        have hfile : p.tree.isFile y = true := by
          rw [Tree.isFile, hread]
          rfl
        exact runBytes_found hs hfile hbelow encoding y.path bytes

theorem runFiles_found {files : List Place}
    (hfiles : ∀ at_ ∈ files, ['.', '.'] ∉ at_ ∧ root <+: at_.dropLast) (p : Progress) :
    (runFiles w r (files.map Place.path) p).1.tree.found s root = p.tree.found s root := by
  induction files generalizing p with
  | nil => rfl
  | cons at_ files ih =>
    obtain ⟨hup, hbelow⟩ := hfiles at_ List.mem_cons_self
    have hstep := runFile_found (w := w) (r := r) hs hup hbelow p
    rw [List.map_cons, runFiles]
    split
    · rfl
    · rw [← hstep]
      cases hrun : runFile w r at_.path p with
      | mk q crash =>
        cases crash with
        | some c => rfl
        | none => exact ih (fun b hb => hfiles b (List.mem_cons_of_mem _ hb)) q

end

theorem search_excludes {r : Request} {s : Search} (h : r.search = .ok s) :
    ∀ pattern ∈ standardExcludes, pattern ∈ s.excludes := by
  rw [Request.search] at h
  split at h
  · cases h
  · obtain rfl := Except.ok.inj h
    exact fun pattern hpattern => List.mem_append_left _ hpattern

theorem runFormat_found {w : World} {r : Request} {dir : Path} {root : Place} {s : Search}
    (hpaths : r.paths = [dir]) (hsearch : r.search = .ok s)
    (hplace : w.tree.locate w.cwd dir = .place root) (hroot : w.tree.isFolder root = true)
    (hup : ∀ at_ ∈ w.tree.places, ['.', '.'] ∉ at_) :
    (runFormat w r).tree.found s root = w.tree.found s root := by
  have hfiles : ∀ at_ ∈ scriptFiles w.tree s root, ['.', '.'] ∉ at_ ∧ root <+: at_.dropLast := by
    intro at_ hat
    obtain ⟨hfile, habove, hne, _⟩ := mem_scriptFiles.mp hat
    exact ⟨hup at_ ((w.tree.mem_places_iff at_).mpr hfile),
      (Tree.above_iff.mp ⟨habove, hne.symm⟩).2⟩
  rcases runFormat_tree w r with htree | htree
  · rw [htree]
  · obtain ⟨p, hp, hrun⟩ := runRequest_tree (targets_directory hpaths hsearch hplace hroot)
    rw [htree, hrun, runFiles_found (search_excludes hsearch) hfiles, hp]

/-- The copies and drafts of all files below a directory are excluded there. A run over a directory,
however it ends, leaves its search with the list of files from before the run. -/
theorem own_files_unfound :
    (∀ root p : Path, root.Below p → ∀ stamp process : Text,
      isExcluded (p.withName (backupName stamp p.name)) root standardExcludes = .ok true ∧
        isExcluded (p.withName (draftName process p.name)) root standardExcludes = .ok true) ∧
    ∀ (w : World) (r : Request) (dir : Path) (root : Place) (s : Search),
      r.paths = [dir] → r.search = .ok s → w.tree.locate w.cwd dir = .place root →
      w.tree.isFolder root = true → (∀ at_ ∈ w.tree.places, ['.', '.'] ∉ at_) →
      scriptFiles (runFormat w r).tree s root = scriptFiles w.tree s root := by
  refine ⟨fun root p hbelow stamp process => ⟨?_, ?_⟩, ?_⟩
  · exact isExcluded_of_marked hbelow (marked_backupName stamp p.name)
  · exact isExcluded_of_marked hbelow (marked_draftName process p.name)
  · intro w r dir root s hpaths hsearch hplace hroot hup
    have hfound := runFormat_found hpaths hsearch hplace hroot hup
    rw [Tree.found, Tree.found] at hfound
    rw [scriptFiles_eq, scriptFiles_eq, hfound]

/-- A directory with one script in it, and a directory that has the name of the script's copy. -/
def takenName : World :=
  { oneScript with
    tree := { oneScript.tree with folders := [["d".toList, "a.bak.20240102-030405.vbs".toList]] } }

/-- The copy falls into the directory of its name, where it keeps the name of the script. -/
theorem takenName_unfound :
    isExcluded ((Path.parse "d/a.vbs".toList).withName
        (backupName "20240102-030405".toList "a.vbs".toList)) (Path.parse "d".toList)
        standardExcludes = .ok true ∧
      (runFormat takenName formatDirectory).tree.isFile
        ["d".toList, "a.bak.20240102-030405.vbs".toList, "a.vbs".toList] = true ∧
      ∃ s, formatDirectory.search = .ok s ∧
        scriptFiles (runFormat takenName formatDirectory).tree s ["d".toList] =
          scriptFiles takenName.tree s ["d".toList] := by
  have hbelow : (Path.parse "d".toList).Below (Path.parse "d/a.vbs".toList) := by
    refine ⟨?_, ?_, ?_⟩
    · decide
    · decide
    · decide
  refine ⟨?_, ?_, _, rfl, ?_⟩
  · exact (own_files_unfound.1 _ _ hbelow _ []).1
  · decide +kernel
  · exact own_files_unfound.2 _ _ _ _ _ rfl rfl (by decide) (by decide) (by decide)

end VbTidy
