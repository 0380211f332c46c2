import VbTidy.Proofs.Batch

/-
A tree of files under writes. Reading a place after a write gives what was written there and the old
content elsewhere; a write over a file, or beside one, makes no new directory, and neither does the
move of a draft onto its file, so every path leads where it led. Replacing a file by way of a fresh
draft is writing it. Copies and drafts of different files have different names.
-/
namespace VbTidy

namespace Tree

/-! ## Reading -/

theorem lookup_put (at_ x : Place) (content : Bytes) (fs : List (Place × Bytes)) :
    (put at_ content fs).lookup x = if x = at_ then some content else fs.lookup x := by
  induction fs with
  | nil =>
    rw [put, List.lookup_cons]
    split
    · next h => rw [if_pos (beq_iff_eq.mp h)]
    · next h => rw [if_neg (beq_eq_false_iff_ne.mp h)]
  | cons f fs ih =>
    obtain ⟨key, old⟩ := f
    rw [put]
    by_cases hkey : key = at_
    · subst hkey
      rw [if_pos (beq_self_eq_true key), List.lookup_cons, List.lookup_cons]
      by_cases hx : x = key
      · rw [if_pos hx, beq_iff_eq.mpr hx]
      · rw [if_neg hx, beq_eq_false_iff_ne.mpr hx]
    · rw [if_neg (by simpa using hkey), List.lookup_cons, List.lookup_cons, ih]
      by_cases hx : x = key
      · have hat : x ≠ at_ := fun h => hkey (hx.symm.trans h)
        simp only [if_neg hat]
      · rw [beq_eq_false_iff_ne.mpr hx]

@[simp] theorem read?_write (tree : Tree) (at_ x : Place) (content : Bytes) :
    (tree.write at_ content).read? x = if x = at_ then some content else tree.read? x :=
  lookup_put at_ x content tree.files

@[simp] theorem read?_remove (tree : Tree) (at_ x : Place) :
    (tree.remove at_).read? x = if x = at_ then none else tree.read? x := by
  rw [remove, read?, read?]
  induction tree.files with
  | nil => simp
  | cons f fs ih =>
    rw [List.lookup_cons]
    by_cases hf : f.1 = at_
    · rw [List.filter_cons_of_neg (by simpa using hf), ih, hf]
      split
      · rfl
      · next hx => rw [beq_eq_false_iff_ne.mpr hx]
    · rw [List.filter_cons_of_pos (by simpa using hf), List.lookup_cons, ih]
      by_cases hx : x = f.1
      · have hat : x ≠ at_ := fun h => hf (hx.symm.trans h)
        simp only [if_neg hat]
      · rw [beq_eq_false_iff_ne.mpr hx]

/-- A write takes no file away. -/
theorem isFile_write {tree : Tree} {x : Place} (h : tree.isFile x = true) (target : Place)
    (content : Bytes) : (tree.write target content).isFile x = true := by
  rw [isFile, read?_write]
  split
  · rfl
  · exact h

theorem ne_nil_of_read {tree : Tree} {x : Place} {content : Bytes}
    (hroot : tree.isFile [] = false) (h : tree.read? x = some content) : x ≠ [] := by
  rintro rfl
  rw [isFile, h] at hroot
  cases hroot

/-- The places of the files. -/
def places (tree : Tree) : List Place :=
  tree.files.map Prod.fst

theorem mem_places_iff (tree : Tree) (x : Place) : x ∈ tree.places ↔ tree.isFile x = true := by
  rw [places, isFile, read?]
  induction tree.files with
  | nil => simp
  | cons f fs ih =>
    rw [List.map_cons, List.mem_cons, List.lookup_cons]
    by_cases hx : x = f.1
    · simp [hx]
    · rw [beq_eq_false_iff_ne.mpr hx, ← ih]
      exact or_iff_right hx

/-! ## Directories -/

theorem isFolder_iff (tree : Tree) (x : Place) :
    tree.isFolder x = true ↔
      x = [] ∨ (∃ d ∈ tree.folders, x <+: d) ∨ ∃ f ∈ tree.places, x <+: f ∧ x ≠ f := by
  simp [isFolder, places, or_assoc]

theorem isFolder_of_prefix {tree : Tree} {x d : Place} (hd : tree.isFolder d = true)
    (h : x <+: d) : tree.isFolder x = true := by
  rw [isFolder_iff] at hd ⊢
  rcases hd with rfl | ⟨e, he, hde⟩ | ⟨f, hf, hdf, hne⟩
  · exact .inl (List.prefix_nil.mp h)
  · exact .inr (.inl ⟨e, he, h.trans hde⟩)
  · refine .inr (.inr ⟨f, hf, h.trans hdf, ?_⟩)
    rintro rfl
    exact hne (List.IsPrefix.eq_of_length_le hdf h.length_le)

/-- What lies above a place without being it lies above its directory. -/
theorem above_iff {x f : Place} : (x <+: f ∧ x ≠ f) ↔ f ≠ [] ∧ x <+: f.dropLast := by
  rcases List.eq_nil_or_concat f with rfl | ⟨d, n, rfl⟩
  · simp
  · rw [List.concat_eq_append, List.dropLast_concat, List.prefix_concat_iff]
    constructor
    · rintro ⟨h | h, hne⟩
      · exact absurd h hne
      · exact ⟨by simp, h⟩
    · rintro ⟨_, h⟩
      refine ⟨.inr h, ?_⟩
      rintro rfl
      have := h.length_le
      rw [List.length_append, List.length_singleton] at this
      omega

theorem isFolder_dropLast {tree : Tree} {at_ : Place} (hfile : tree.isFile at_ = true)
    (hne : at_ ≠ []) : tree.isFolder at_.dropLast = true := by
  rw [isFolder_iff]
  exact .inr (.inr ⟨at_, (tree.mem_places_iff at_).mpr hfile,
    above_iff.mpr ⟨hne, List.prefix_rfl⟩⟩)

/-- A directory stays one where the same directories were made and each file that is gone has left
its directory behind. -/
theorem isFolder_mono {tree tree' : Tree} (hfolders : tree'.folders = tree.folders)
    (hfiles : ∀ f, tree'.isFile f = true →
      tree.isFile f = true ∨ tree.isFolder f.dropLast = true)
    {x : Place} (h : tree'.isFolder x = true) : tree.isFolder x = true := by
  rcases (isFolder_iff tree' x).mp h with h | h | ⟨f, hf, habove⟩
  · exact (isFolder_iff tree x).mpr (.inl h)
  · exact (isFolder_iff tree x).mpr (.inr (.inl (hfolders ▸ h)))
  · rcases hfiles f ((tree'.mem_places_iff f).mp hf) with hf | hdir
    · exact (isFolder_iff tree x).mpr (.inr (.inr ⟨f, (tree.mem_places_iff f).mpr hf, habove⟩))
    · exact isFolder_of_prefix hdir (above_iff.mp habove).2

/-- A place is written to whose directory is there. -/
theorem isFolder_write_below {tree : Tree} {target : Place} (content : Bytes)
    (hdir : tree.isFolder target.dropLast = true) (x : Place) :
    (tree.write target content).isFolder x = tree.isFolder x := by
  have hfolders : (tree.write target content).folders = tree.folders := rfl
  rw [Bool.eq_iff_iff]
  constructor
  · apply isFolder_mono hfolders
    intro f hf
    rw [isFile, read?_write] at hf
    split at hf
    · next h => exact .inr (h ▸ hdir)
    · exact .inl hf
  · apply isFolder_mono hfolders.symm
    exact fun f hf => .inl (isFile_write hf target content)

/-- A place is written to that is a file, or that lies beside one. -/
theorem isFolder_write {tree : Tree} {at_ target : Place} (content : Bytes)
    (hfile : tree.isFile at_ = true) (hne : at_ ≠ [])
    (htarget : target = at_ ∨ ∃ n, target = at_.beside n) (x : Place) :
    (tree.write target content).isFolder x = tree.isFolder x := by
  have hdir := isFolder_dropLast hfile hne
  apply isFolder_write_below
  rcases htarget with rfl | ⟨n, rfl⟩
  · exact hdir
  · rw [Place.beside, List.dropLast_concat]
    exact hdir

/-- Where paths lead is settled by which places are directories. -/
theorem locate_congr {tree tree' : Tree} (h : ∀ x, tree'.isFolder x = tree.isFolder x)
    (cwd : Place) (p : Path) : tree'.locate cwd p = tree.locate cwd p := by
  have hfollow : ∀ ns at_, tree'.follow at_ ns = tree.follow at_ ns := by
    intro ns
    induction ns with
    | nil => exact fun _ => rfl
    | cons n ns ih =>
      intro at_
      rw [follow, follow, h, ih]
  rw [locate, locate, hfollow]

/-! ## Replacing by way of a draft -/

theorem remove_write_fresh {tree : Tree} {draft : Place} (content : Bytes)
    (h : tree.read? draft = none) : (tree.write draft content).remove draft = tree := by
  have hmem : draft ∉ tree.files.map Prod.fst := by
    intro hin
    have := (tree.mem_places_iff draft).mp hin
    rw [isFile, h] at this
    cases this
  have hput : ∀ fs : List (Place × Bytes), draft ∉ fs.map Prod.fst →
      (put draft content fs).filter (·.1 != draft) = fs := by
    intro fs
    induction fs with
    | nil => simp [put]
    | cons f fs ih =>
      intro hf
      rw [List.map_cons, List.mem_cons, not_or] at hf
      have hkey : f.1 ≠ draft := fun h => hf.1 h.symm
      rw [put, if_neg (by simpa using hkey), List.filter_cons_of_pos (by simpa using hkey),
        ih hf.2]
  show { tree with files := (put draft content tree.files).filter (·.1 != draft) } = tree
  rw [hput _ hmem]

theorem draftFault_eq_none_iff {tree : Tree} {process : Text} {path : Path} {at_ : Place} :
    tree.draftFault process path at_ = none ↔
      byteLength (draftName process at_.name) ≤ longestName ∧
        tree.isFolder (at_.beside (draftName process at_.name)) = false := by
  rw [draftFault]
  split
  · next h => simp; omega
  · next h =>
    split
    · next hdir => simp [hdir]
    · next hdir => exact iff_of_true rfl ⟨by omega, by simpa using hdir⟩

/-- A draft that is moved into place is gone, and its text stands in the file. -/
theorem replace_eq (tree : Tree) (process : Text) (at_ : Place) (content : Bytes) :
    tree.replace process at_ content =
      ((tree.write (at_.beside (draftName process at_.name)) content).remove
        (at_.beside (draftName process at_.name))).write at_ content := by
  have hread : (tree.write (at_.beside (draftName process at_.name)) content).read?
      (at_.beside (draftName process at_.name)) = some content := by
    rw [read?_write, if_pos rfl]
  rw [replace, move, hread]

theorem read?_replace (tree : Tree) (process : Text) (at_ x : Place) (content : Bytes) :
    (tree.replace process at_ content).read? x =
      if x = at_ then some content
      else if x = at_.beside (draftName process at_.name) then none
      else tree.read? x := by
  rw [replace_eq, read?_write, read?_remove, read?_write]
  split
  · rfl
  · split
    · rfl
    · rfl

theorem isFolder_replace {tree : Tree} {at_ : Place} (process : Text) (content : Bytes)
    (hfile : tree.isFile at_ = true) (hne : at_ ≠ []) (x : Place) :
    (tree.replace process at_ content).isFolder x = tree.isFolder x := by
  have hread := fun z => tree.read?_replace process at_ z content
  have hnew : (tree.replace process at_ content).isFile at_ = true := by
    rw [isFile, hread, if_pos rfl]
    rfl
  have hfolders : (tree.replace process at_ content).folders = tree.folders := by
    rw [replace_eq]
    rfl
  rw [Bool.eq_iff_iff]
  constructor
  · apply isFolder_mono hfolders
    intro f hf
    rw [isFile, hread] at hf
    split at hf
    · next h => exact .inl (h ▸ hfile)
    · split at hf
      · cases hf
      · exact .inl hf
  · -- only the draft may be gone, and it stood beside the file
    apply isFolder_mono hfolders.symm
    intro f hf
    by_cases hdraft : f = at_.beside (draftName process at_.name)
    · right
      rw [hdraft, Place.beside, List.dropLast_concat]
      exact isFolder_dropLast hnew hne
    · left
      rw [isFile, hread, if_neg hdraft]
      split
      · rfl
      · exact hf

theorem replace_fresh {tree : Tree} {process : Text} {at_ : Place} {content : Bytes}
    (hfree : tree.read? (at_.beside (draftName process at_.name)) = none) :
    tree.replace process at_ content = tree.write at_ content := by
  rw [replace_eq, remove_write_fresh content hfree]

theorem backup_fresh {tree : Tree} {stamp : Text} {path : Path} {at_ : Place} {content : Bytes}
    (hread : tree.read? at_ = some content)
    (hfree : tree.isFolder (at_.beside (backupName stamp at_.name)) = false)
    (hlen : byteLength (backupName stamp at_.name) ≤ longestName) :
    tree.backup stamp path at_ =
      .ok (tree.write (at_.beside (backupName stamp at_.name)) content) := by
  rw [backup, hread]
  dsimp only
  rw [if_neg (by omega), hfree]
  rfl

end Tree

/-! ## Names of copies and drafts -/

theorem last_point_unique {a b s t : Text} (hs : '.' ∉ s) (ht : '.' ∉ t)
    (h : a ++ '.' :: s = b ++ '.' :: t) : a = b ∧ s = t := by
  rcases List.append_eq_append_iff.mp h with ⟨u, rfl, hu⟩ | ⟨u, rfl, hu⟩
  · cases u with
    | nil => exact ⟨by simp, (List.cons.inj hu).2⟩
    | cons c u =>
      obtain ⟨_, rfl⟩ := List.cons.inj hu
      exact absurd (by simp) hs
  · cases u with
    | nil => exact ⟨by simp, (List.cons.inj hu).2.symm⟩
    | cons c u =>
      obtain ⟨_, rfl⟩ := List.cons.inj hu
      exact absurd (by simp) ht

/-- The suffix of a name starts at its last point. -/
theorem splitSuffix_eq {name : Text} (h : (splitSuffix name).2 ≠ []) :
    ∃ stem tail, splitSuffix name = (stem, '.' :: tail) ∧ '.' ∉ tail ∧
      name = stem ++ '.' :: tail := by
  -- the name, last character first: the tail up to the last point, and what is left from there
  have hcut := List.takeWhile_append_dropWhile (p := (· != '.')) (l := name.reverse)
  have htail : '.' ∉ name.reverse.takeWhile (· != '.') := fun hmem => by
    simpa using List.all_eq_true.mp List.all_takeWhile _ hmem
  have hpoint : ∀ c t, name.reverse.dropWhile (· != '.') = c :: t → c = '.' := by
    intro c t ht
    have := List.head?_dropWhile_not (· != '.') name.reverse
    rw [ht] at this
    simpa using this
  unfold splitSuffix at h ⊢
  dsimp only at h ⊢
  generalize name.reverse.takeWhile (· != '.') = tail at hcut htail h ⊢
  split at h
  · next hcond =>
    rw [if_pos hcond]
    simp only [Bool.and_eq_true, decide_eq_true_eq, List.length_reverse] at hcond
    cases hback : name.reverse.dropWhile (· != '.') with
    | nil =>
      rw [hback, List.append_nil] at hcut
      have hlen := congrArg List.length hcut
      rw [List.length_reverse] at hlen
      omega
    | cons c back =>
      obtain rfl := hpoint c back hback
      have hname : name = back.reverse ++ '.' :: tail.reverse := by
        rw [← List.reverse_reverse name, ← hcut, hback]
        simp
      refine ⟨back.reverse, tail.reverse, ?_, by simpa using htail, hname⟩
      have hlen : name.length - tail.reverse.length - 1 = back.reverse.length := by
        rw [hname]
        simp
        omega
      rw [hlen, hname, List.take_left, List.drop_left]
  · exact absurd rfl h

/-- Two names with a suffix get the same mark only if they are the same, and never different marks
that end in different letters. -/
theorem markedName_inj (mark mark' : Text) {part part' name name' : Text} (hpart : '.' ∉ part)
    (hpart' : '.' ∉ part') (hname : (splitSuffix name).2 ≠ []) (hname' : (splitSuffix name').2 ≠ [])
    (h : markedName (mark ++ '.' :: part) name = markedName (mark' ++ '.' :: part') name') :
    (splitSuffix name).1 ++ mark = (splitSuffix name').1 ++ mark' ∧ part = part' ∧
      (splitSuffix name).2 = (splitSuffix name').2 := by
  obtain ⟨stem, tail, hsplit, htail, _⟩ := splitSuffix_eq hname
  obtain ⟨stem', tail', hsplit', htail', _⟩ := splitSuffix_eq hname'
  rw [markedName, markedName, hsplit, hsplit'] at h
  obtain ⟨hfront, hend⟩ := last_point_unique htail htail' h
  rw [← List.append_assoc, ← List.append_assoc] at hfront
  obtain ⟨hstem, hmark⟩ := last_point_unique hpart hpart' hfront
  rw [hsplit, hsplit']
  exact ⟨hstem, hmark, by rw [hend]⟩

/-- The place of the copy of a file. -/
def Place.copy (w : World) (at_ : Place) : Place :=
  at_.beside (backupName w.stamp at_.name)

/-- The place of the draft of a file. -/
def Place.draft (w : World) (at_ : Place) : Place :=
  at_.beside (draftName w.process at_.name)

theorem beside_inj {a b : Place} {m n : Text} (h : a.beside m = b.beside n) :
    a.dropLast = b.dropLast ∧ m = n := by
  obtain ⟨hdir, hname⟩ := List.append_inj' h rfl
  exact ⟨hdir, (List.cons.inj hname).1⟩

theorem Place.eq_of_name {a b : Place} (ha : a ≠ []) (hb : b ≠ []) (hdir : a.dropLast = b.dropLast)
    (hname : a.name = b.name) : a = b := by
  have whole : ∀ x : Place, x ≠ [] → x = x.dropLast ++ [x.name] := by
    intro x hx
    rw [Place.name, List.getLast?_eq_getLast_of_ne_nil hx]
    exact (List.dropLast_append_getLast hx).symm
  rw [whole a ha, whole b hb, hdir, hname]

section
variable {w : World} {a b : Place} (hstamp : '.' ∉ w.stamp)
  (hsa : (splitSuffix a.name).2 ≠ []) (hsb : (splitSuffix b.name).2 ≠ [])
include hstamp hsa hsb

theorem copy_inj (ha : a ≠ []) (hb : b ≠ []) (h : a.copy w = b.copy w) : a = b := by
  obtain ⟨hdir, hname⟩ := beside_inj h
  obtain ⟨hstem, _, hsuffix⟩ := markedName_inj ".bak".toList ".bak".toList hstamp
    hstamp hsa hsb hname
  apply Place.eq_of_name ha hb hdir
  obtain ⟨stem, tail, hsplit, _, hname⟩ := splitSuffix_eq hsa
  obtain ⟨stem', tail', hsplit', _, hname'⟩ := splitSuffix_eq hsb
  rw [hsplit, hsplit'] at hstem hsuffix
  obtain rfl : stem = stem' := List.append_cancel_right hstem
  rw [hname, hname']
  exact congrArg _ hsuffix

theorem draft_ne_copy (hprocess : '.' ∉ w.process) : a.draft w ≠ b.copy w := by
  intro h
  obtain ⟨_, hname⟩ := beside_inj h
  obtain ⟨hstem, _, _⟩ := markedName_inj ".tmp".toList ".bak".toList hprocess
    hstamp hsa hsb hname
  have hlast := congrArg List.getLast? hstem
  rw [List.getLast?_append_of_ne_nil _ (by decide),
    List.getLast?_append_of_ne_nil _ (by decide)] at hlast
  exact absurd hlast (by decide)

end

end VbTidy
