import VbTidy.Proofs.Again
import VbTidy.Proofs.Directory
import Mathlib.Logic.Function.Iterate

/-
Files that a run comes to more than once. Paths may repeat, and a directory may be named beside a
file in it; the file is then worked on each time. The copies of one run have one name for each file,
so a later visit writes over the copy of an earlier one.

What is proved:
  1. `markedName_unique`: with the time and the process written in digits, different files have
     different copies and drafts, and no copy is a draft.
  2. `saveFile_visited` and what follows it: a visit leaves every other file as it is. The file keeps
     its content, or it is formatted once more and its copy holds what it held just before.
  3. `copy_holds_last_round`: after any run with copies, a file has been formatted some number of
     times, not more than it was visited, and its copy is one round behind. So the copy holds the
     content from before the run if the file was visited once, or if the second visit found nothing
     to change.
  4. `delimited_twice_not_recoverable`: a file that is visited twice, and that the second visit
     changes again, has lost its old content.
-/
namespace VbTidy

/-! ## Names of copies and drafts -/

theorem splitSuffix_append (name : Text) :
    (splitSuffix name).1 ++ (splitSuffix name).2 = name := by
  unfold splitSuffix
  dsimp only
  split
  · exact List.take_append_drop _ _
  · exact List.append_nil _

theorem length_markedName (mark name : Text) :
    (markedName mark name).length = name.length + mark.length := by
  have h := congrArg List.length (splitSuffix_append name)
  rw [List.length_append] at h
  rw [markedName, List.length_append, List.length_append]
  omega

/-- A mark stands at the end of a name without a suffix, and before the suffix of any other. -/
theorem markedName_cases (mark name : Text) :
    markedName mark name = name ++ mark ∨
      ∃ stem tail, '.' ∉ tail ∧ name = stem ++ '.' :: tail ∧
        markedName mark name = stem ++ mark ++ '.' :: tail := by
  by_cases hsuffix : (splitSuffix name).2 = []
  · left
    have hname := splitSuffix_append name
    rw [hsuffix, List.append_nil] at hname
    have hsplit : splitSuffix name = (name, []) := Prod.ext hname hsuffix
    rw [markedName, hsplit]
    exact List.append_nil _
  · right
    obtain ⟨stem, tail, hsplit, htail, hname⟩ := splitSuffix_eq hsuffix
    exact ⟨stem, tail, htail, hname, by rw [markedName, hsplit]⟩

section
variable {kind kind' part part' name name' : Text} (hkind : '.' ∉ kind) (hkind' : '.' ∉ kind')
  (hpart : '.' ∉ part) (hpart' : '.' ∉ part')
include hkind hkind' hpart hpart'

theorem mark_unique {a b : Text}
    (h : a ++ ('.' :: kind ++ '.' :: part) = b ++ ('.' :: kind' ++ '.' :: part')) :
    a = b ∧ kind = kind' := by
  rw [← List.append_assoc, ← List.append_assoc] at h
  exact last_point_unique hkind hkind' (last_point_unique hpart hpart' h).1

/-- A marked name tells the name and the kind of the mark, if neither kind can be taken for the part
behind the other's last point. -/
theorem markedName_unique (hne : kind ≠ part') (hne' : kind' ≠ part)
    (h : markedName ('.' :: kind ++ '.' :: part) name =
      markedName ('.' :: kind' ++ '.' :: part') name') : name = name' ∧ kind = kind' := by
  rcases markedName_cases ('.' :: kind ++ '.' :: part) name with
    hm | ⟨stem, tail, htail, hname, hm⟩
  · rcases markedName_cases ('.' :: kind' ++ '.' :: part') name' with
      hm' | ⟨stem', tail', htail', hname', hm'⟩
    · rw [hm, hm'] at h
      exact mark_unique hkind hkind' hpart hpart' h
    · -- the last part of the one is the suffix of the other, and the kind comes to stand as a part
      rw [hm, hm', ← List.append_assoc] at h
      obtain ⟨hfront, _⟩ := last_point_unique hpart htail' h
      rw [← List.append_assoc] at hfront
      exact absurd (last_point_unique hkind hpart' hfront).2 hne
  · rcases markedName_cases ('.' :: kind' ++ '.' :: part') name' with
      hm' | ⟨stem', tail', htail', hname', hm'⟩
    · rw [hm, hm', ← List.append_assoc name'] at h
      obtain ⟨hfront, _⟩ := last_point_unique htail hpart' h
      rw [← List.append_assoc] at hfront
      exact absurd (last_point_unique hpart hkind' hfront).2.symm hne'
    · rw [hm, hm'] at h
      obtain ⟨hfront, rfl⟩ := last_point_unique htail htail' h
      obtain ⟨rfl, hsame⟩ := mark_unique hkind hkind' hpart hpart' hfront
      exact ⟨hname.trans hname'.symm, hsame⟩

end

/-- The time stands in names as digits and hyphens and the process as digits, and the root of the
tree is a directory. -/
structure World.Usual (w : World) : Prop where
  stamp : ∀ c ∈ w.stamp, c.isDigit = true ∨ c = '-'
  process : ∀ c ∈ w.process, c.isDigit = true
  root : w.tree.isFile [] = false

section
variable {w : World} (hw : w.Usual) {a b : Place}
include hw

theorem World.Usual.not_mem_stamp {c : Char} (h : c.isDigit = false) (hc : c ≠ '-') :
    c ∉ w.stamp := by
  intro hmem
  rcases hw.stamp c hmem with hdigit | hhyphen
  · rw [h] at hdigit
    cases hdigit
  · exact hc hhyphen

theorem World.Usual.not_mem_process {c : Char} (h : c.isDigit = false) : c ∉ w.process := by
  intro hmem
  rw [hw.process c hmem] at h
  cases h

theorem World.Usual.copy_unique (ha : a ≠ []) (hb : b ≠ []) (h : a.copy w = b.copy w) : a = b := by
  obtain ⟨hdir, hname⟩ := beside_inj h
  have hpoint : '.' ∉ w.stamp := hw.not_mem_stamp (by decide) (by decide)
  have hkind : "bak".toList ≠ w.stamp := by
    intro heq
    exact hw.not_mem_stamp (c := 'b') (by decide) (by decide) (heq ▸ by decide)
  exact Place.eq_of_name ha hb hdir
    (markedName_unique (by decide) (by decide) hpoint hpoint hkind hkind hname).1

theorem World.Usual.copy_ne_draft : a.copy w ≠ b.draft w := by
  intro h
  obtain ⟨_, hname⟩ := beside_inj h
  have hbak : "bak".toList ≠ w.process := by
    intro heq
    exact hw.not_mem_process (c := 'b') (by decide) (heq ▸ by decide)
  have htmp : "tmp".toList ≠ w.stamp := by
    intro heq
    exact hw.not_mem_stamp (c := 't') (by decide) (by decide) (heq ▸ by decide)
  have hkinds := (markedName_unique (by decide) (by decide)
    (hw.not_mem_stamp (by decide) (by decide)) (hw.not_mem_process (by decide)) hbak htmp hname).2
  exact absurd hkinds (by decide)

end

/-- What stands beside a file under a marked name is another file. -/
theorem Place.beside_marked_ne (at_ : Place) {mark : Text} (hmark : mark ≠ []) :
    at_.beside (markedName mark at_.name) ≠ at_ := by
  intro h
  have hname := congrArg Place.name h
  rw [Place.name_beside] at hname
  have hlen := length_markedName mark at_.name
  have hpos := List.length_pos_of_ne_nil hmark
  rw [hname] at hlen
  omega

theorem Place.copy_ne (w : World) (at_ : Place) : at_.copy w ≠ at_ :=
  at_.beside_marked_ne (by simp)

theorem Place.draft_ne (w : World) (at_ : Place) : at_.draft w ≠ at_ :=
  at_.beside_marked_ne (by simp)

/-! ## One visit -/

/-- The text that a visit to a file with a content writes, and its encoding, if it writes one. -/
def Request.offer (r : Request) (bytes : Bytes) : Option (Encoding × Text) :=
  match r.codec with
  | .error _ => none
  | .ok encoding =>
    match encoding.decode bytes with
    | .error _ => none
    | .ok raw =>
      match format r.settings raw with
      | .error _ => none
      | .ok f => if f.text = raw then none else some (encoding, f.text)

/-- The content of a file that has been visited. -/
def Request.reworked (r : Request) (bytes : Bytes) : Bytes :=
  match r.offer bytes with
  | none => bytes
  | some (encoding, text) =>
    match encoding.encode text with
    | .error _ => bytes
    | .ok content => content

/-- The places beside a file that a visit may write to; the second is for a copy that falls into a
directory of its name. -/
def Place.byproducts (w : World) (at_ : Place) : List Place :=
  [at_.copy w, at_.copy w ++ [at_.name], at_.draft w]

/-- Whether the draft of a file can be opened. -/
def OpensDraft (w : World) (tree : Tree) (at_ : Place) : Prop :=
  byteLength (draftName w.process at_.name) ≤ longestName ∧ tree.isFolder (at_.draft w) = false

/-- What a visit to a file with a content makes of a tree. -/
structure Visited (w : World) (r : Request) (at_ : Place) (old : Bytes) (tree tree' : Tree) :
    Prop where
  folders : ∀ x, tree'.isFolder x = tree.isFolder x
  elsewhere : ∀ x, x ≠ at_ → x ∉ at_.byproducts w → tree'.read? x = tree.read? x
  own : tree.isFolder (at_.copy w) = false →
    (tree'.read? at_ = some old ∧ tree'.read? (at_.copy w) = tree.read? (at_.copy w)) ∨
    (r.offer old ≠ none ∧ tree'.read? (at_.copy w) = some old ∧
      (OpensDraft w tree at_ ∧ tree'.read? at_ = some (r.reworked old) ∨
        ¬ OpensDraft w tree at_ ∧ tree'.read? at_ = some old))

section
variable {w : World} {r : Request} {at_ : Place} {old : Bytes}

theorem Visited.refl {tree : Tree} (hread : tree.read? at_ = some old) :
    Visited w r at_ old tree tree where
  folders _ := rfl
  elsewhere _ _ _ := rfl
  own _ := .inl ⟨hread, rfl⟩

/-- A tree after the copy of a file was made. -/
structure Copied (w : World) (at_ : Place) (old : Bytes) (tree tree' : Tree) : Prop where
  folders : ∀ x, tree'.isFolder x = tree.isFolder x
  elsewhere : ∀ x, x ≠ at_ → x ∉ at_.byproducts w → tree'.read? x = tree.read? x
  isFile : tree'.isFile at_ = true
  own : tree.isFolder (at_.copy w) = false →
    tree'.read? at_ = some old ∧ tree'.read? (at_.copy w) = some old

theorem copied_of_backup {tree tree' : Tree} {path : Path} (hread : tree.read? at_ = some old)
    (hne : at_ ≠ []) (h : tree.backup w.stamp path at_ = .ok tree') :
    Copied w at_ old tree tree' := by
  have hfile : tree.isFile at_ = true := by
    rw [Tree.isFile, hread]
    rfl
  have hstill := fun x => Tree.isFile_write hfile x old
  rw [Tree.backup, hread] at h
  dsimp only at h
  rw [← Place.copy] at h
  split at h
  · cases h
  · split at h
    · next hfolder =>
      -- the copy goes into the directory that has its name
      split at h
      · cases h
      · obtain rfl := Except.ok.inj h
        refine ⟨?_, ?_, hstill _, fun hno => ?_⟩
        · apply Tree.isFolder_write_below
          rwa [List.dropLast_concat]
        · intro x _ hx
          rw [Tree.read?_write, if_neg]
          rintro rfl
          exact hx (by simp [Place.byproducts])
        · rw [hfolder] at hno
          cases hno
    · obtain rfl := Except.ok.inj h
      refine ⟨Tree.isFolder_write old hfile hne (.inr ⟨_, rfl⟩), ?_, hstill _, fun _ => ⟨?_, ?_⟩⟩
      · intro x _ hx
        rw [Tree.read?_write, if_neg]
        rintro rfl
        exact hx (by simp [Place.byproducts])
      · rw [Tree.read?_write, if_neg (at_.copy_ne w).symm]
        exact hread
      · rw [Tree.read?_write, if_pos rfl]

/-- A draft that cannot be encoded stays behind empty, beside a file that keeps its content. -/
theorem Copied.leave_draft {tree tree' : Tree} (h : Copied w at_ old tree tree') (hw : w.Usual)
    (hne : at_ ≠ []) (hoffer : r.offer old ≠ none) (hopen : OpensDraft w tree at_)
    (hsame : r.reworked old = old) : Visited w r at_ old tree (tree'.write (at_.draft w) []) where
  folders x := (Tree.isFolder_write [] h.isFile hne (.inr ⟨_, rfl⟩) x).trans (h.folders x)
  elsewhere x hx hmark := by
    rw [Tree.read?_write, if_neg, h.elsewhere x hx hmark]
    rintro rfl
    exact hmark (by simp [Place.byproducts])
  own hno := by
    obtain ⟨hfile, hcopy⟩ := h.own hno
    refine .inr ⟨hoffer, ?_, .inl ⟨hopen, ?_⟩⟩
    · rw [Tree.read?_write, if_neg hw.copy_ne_draft, hcopy]
    · rw [Tree.read?_write, if_neg (at_.draft_ne w).symm, hfile, hsame]

theorem Copied.replace {tree tree' : Tree} {content : Bytes} (h : Copied w at_ old tree tree')
    (hw : w.Usual) (hne : at_ ≠ []) (hoffer : r.offer old ≠ none) (hopen : OpensDraft w tree at_)
    (hnew : r.reworked old = content) :
    Visited w r at_ old tree (tree'.replace w.process at_ content) where
  folders x := (Tree.isFolder_replace w.process content h.isFile hne x).trans (h.folders x)
  elsewhere x hx hmark := by
    rw [Tree.read?_replace, if_neg hx, ← Place.draft, if_neg, h.elsewhere x hx hmark]
    rintro rfl
    exact hmark (by simp [Place.byproducts])
  own hno := by
    obtain ⟨_, hcopy⟩ := h.own hno
    refine .inr ⟨hoffer, ?_, .inl ⟨hopen, ?_⟩⟩
    · rw [Tree.read?_replace, if_neg (at_.copy_ne w), ← Place.draft, if_neg hw.copy_ne_draft, hcopy]
    · rw [Tree.read?_replace, if_pos rfl, hnew]

/-- Saving a file is a visit, whatever comes of it. -/
theorem saveFile_visited {encoding : Encoding} {text : Text} {p : Progress} (hw : w.Usual)
    (path : Path) (hbackup : r.backup = true) (hread : p.tree.read? at_ = some old)
    (hne : at_ ≠ []) (hoffer : r.offer old = some (encoding, text)) :
    Visited w r at_ old p.tree (saveFile w r encoding path at_ text p).tree := by
  have hchange : r.offer old ≠ none := by simp [hoffer]
  rw [saveFile, hbackup, if_pos rfl]
  cases hcopy : p.tree.backup w.stamp path at_ with
  | error f => exact Visited.refl hread
  | ok tree =>
    have hcopied := copied_of_backup hread hne hcopy
    have hopens : tree.draftFault w.process path at_ = none ↔ OpensDraft w p.tree at_ := by
      rw [Tree.draftFault_eq_none_iff, OpensDraft, hcopied.folders]
      rfl
    dsimp only
    cases hdraft : tree.draftFault w.process path at_ with
    | some f =>
      have hshut : ¬ OpensDraft w p.tree at_ := by
        rw [← hopens, hdraft]
        simp
      refine ⟨hcopied.folders, hcopied.elsewhere, fun hno => ?_⟩
      obtain ⟨hfile, hcopy⟩ := hcopied.own hno
      exact .inr ⟨hchange, hcopy, .inr ⟨hshut, hfile⟩⟩
    | none =>
      have hopen := hopens.mp hdraft
      dsimp only
      cases hencode : encoding.encode text with
      | error f =>
        have hsame : r.reworked old = old := by simp [Request.reworked, hoffer, hencode]
        exact hcopied.leave_draft hw hne hchange hopen hsame
      | ok content =>
        have hnew : r.reworked old = content := by simp [Request.reworked, hoffer, hencode]
        exact hcopied.replace hw hne hchange hopen hnew

theorem finishFile_visited {encoding : Encoding} {raw : Text} {f : Formatted} {p : Progress}
    (hw : w.Usual) (path : Path) (hbackup : r.backup = true) (hread : p.tree.read? at_ = some old)
    (hne : at_ ≠ []) (hcodec : r.codec = .ok encoding) (hdecode : encoding.decode old = .ok raw)
    (hformat : format r.settings raw = .ok f) :
    Visited w r at_ old p.tree (finishFile w r encoding path at_ f p).tree := by
  obtain ⟨p', ⟨_, htree, _⟩, hfinish⟩ := finishFile_eq w r encoding path at_ f p
  rw [hfinish]
  rw [← htree] at hread ⊢
  split
  · exact Visited.refl hread
  · next hchanged =>
    split
    · exact Visited.refl hread
    · apply saveFile_visited hw path hbackup hread hne
      have hdiffers : f.text ≠ raw := by
        rw [format_changed hformat] at hchanged
        simpa using hchanged
      rw [Request.offer, hcodec]
      dsimp only
      rw [hdecode]
      dsimp only
      rw [hformat]
      exact if_neg hdiffers

theorem runBytes_visited {encoding : Encoding} {p : Progress} (hw : w.Usual) (path : Path)
    (hbackup : r.backup = true) (hread : p.tree.read? at_ = some old) (hne : at_ ≠ [])
    (hcodec : r.codec = .ok encoding) :
    Visited w r at_ old p.tree (runBytes w r encoding path at_ old p).1.tree := by
  cases hdecode : encoding.decode old with
  | error f =>
    rw [runBytes, hdecode]
    exact Visited.refl hread
  | ok raw =>
    obtain ⟨p', ⟨_, htree, _⟩, hok, herror⟩ := runBytes_eq w r path at_ p hdecode
    rw [← htree] at hread ⊢
    cases hformat : format r.settings raw with
    | ok f =>
      rw [hok f hformat]
      exact finishFile_visited hw path hbackup hread hne hcodec hdecode hformat
    | error f =>
      rw [herror f hformat]
      split
      · exact Visited.refl hread
      · exact Visited.refl hread

end

/-! ## All visits of a run -/

/-- The place to which a path leads, if it leads to one. -/
def Whereabouts.place? : Whereabouts → Option Place
  | place at_ => some at_
  | _ => none

/-- The places that work on files comes to, in order, each as often as it is named. -/
def World.stops (w : World) (paths : List Path) : List Place :=
  paths.filterMap fun p => (w.tree.locate w.cwd p).place?

/-- The places that a run comes to for a request. -/
def Request.stops (w : World) (r : Request) : List Place :=
  match r.targets w with
  | .error _ => []
  | .ok found => w.stops found.files

/-- A place that a run keeps apart from the names it makes: it is no copy or draft itself and lies
in no directory that has the name of a copy, and nothing is in the way of its own copy. -/
structure Sheltered (w : World) (stops : List Place) (x : Place) : Prop where
  unmarked : ∀ y ∈ stops, x ≠ y.copy w ∧ x ≠ y.draft w
  outside : ∀ y ∈ stops, x.dropLast ≠ y.copy w
  copy : x.copy w ∉ stops
  free : w.tree.isFolder (x.copy w) = false

section
variable {w : World} {r : Request} {x y : Place} {old : Bytes}

theorem Sheltered.mono {stops stops' : List Place} (hsub : ∀ y ∈ stops', y ∈ stops)
    (h : Sheltered w stops x) : Sheltered w stops' x where
  unmarked y hy := h.unmarked y (hsub y hy)
  outside y hy := h.outside y (hsub y hy)
  copy hmem := h.copy (hsub _ hmem)
  free := h.free

theorem Sheltered.not_byproduct {stops : List Place} (h : Sheltered w stops x) (hy : y ∈ stops) :
    x ∉ y.byproducts w := by
  rw [Place.byproducts, List.mem_cons, List.mem_cons, List.mem_singleton]
  rintro (heq | heq | heq)
  · exact (h.unmarked y hy).1 heq
  · apply h.outside y hy
    rw [heq, List.dropLast_concat]
  · exact (h.unmarked y hy).2 heq

theorem Sheltered.copy_not_byproduct {stops : List Place} (h : Sheltered w stops x) (hw : w.Usual)
    (hx : x ≠ []) (hne : y ≠ []) (hother : x ≠ y) (hy : y ∈ stops) :
    x.copy w ∉ y.byproducts w := by
  rw [Place.byproducts, List.mem_cons, List.mem_cons, List.mem_singleton]
  rintro (heq | heq | heq)
  · exact hother (hw.copy_unique hx hne heq)
  · have hdir := congrArg List.dropLast heq
    rw [Place.copy, Place.beside, List.dropLast_concat, List.dropLast_concat] at hdir
    exact h.outside y hy hdir
  · exact hw.copy_ne_draft heq

/-- A tree in which a file has been formatted a number of times, each time to something else, and in
which its copy is one round behind. -/
structure Round (w : World) (r : Request) (x : Place) (old : Bytes) (n : Nat) (tree : Tree) :
    Prop where
  folders : ∀ z, tree.isFolder z = w.tree.isFolder z
  root : tree.isFile [] = false
  offers : ∀ k < n, r.offer (r.reworked^[k] old) ≠ none
  file : tree.read? x = some (r.reworked^[n] old)
  copy : 0 < n → tree.read? (x.copy w) = some (r.reworked^[n - 1] old)
  opens : 0 < n → OpensDraft w w.tree x

theorem Round.start (hw : w.Usual) (hold : w.tree.read? x = some old) :
    Round w r x old 0 w.tree where
  folders _ := rfl
  root := hw.root
  offers k hk := absurd hk (Nat.not_lt_zero k)
  file := hold
  copy h := absurd h (Nat.not_lt_zero 0)
  opens h := absurd h (Nat.not_lt_zero 0)

variable {n : Nat} {tree tree' : Tree}

theorem root_of_visited {bytes : Bytes} (hne : y ≠ []) (h : Visited w r y bytes tree tree')
    (hroot : tree.isFile [] = false) : tree'.isFile [] = false := by
  have hmark : ([] : Place) ∉ y.byproducts w := by
    simp [Place.byproducts, Place.copy, Place.draft, Place.beside]
  rw [Tree.isFile, h.elsewhere [] hne.symm hmark]
  exact hroot

/-- A visit to another file leaves a file and its copy alone. -/
theorem Round.pass {bytes : Bytes} (h : Round w r x old n tree)
    (hvisit : Visited w r y bytes tree tree') (hne : y ≠ []) (hother : x ≠ y)
    (hclear : x ∉ y.byproducts w) (hcopy : x.copy w ≠ y) (hcopyClear : x.copy w ∉ y.byproducts w) :
    Round w r x old n tree' where
  folders z := (hvisit.folders z).trans (h.folders z)
  root := root_of_visited hne hvisit h.root
  offers := h.offers
  file := (hvisit.elsewhere x hother hclear).trans h.file
  copy hn := (hvisit.elsewhere (x.copy w) hcopy hcopyClear).trans (h.copy hn)
  opens := h.opens

/-- A visit to the file itself takes it one round on, or leaves it where it is. -/
theorem Round.visit (h : Round w r x old n tree) (hne : x ≠ [])
    (hfree : w.tree.isFolder (x.copy w) = false)
    (hvisit : Visited w r x (r.reworked^[n] old) tree tree') :
    Round w r x old n tree' ∨ Round w r x old (n + 1) tree' := by
  have hfolders : ∀ z, tree'.isFolder z = w.tree.isFolder z :=
    fun z => (hvisit.folders z).trans (h.folders z)
  have hroot := root_of_visited hne hvisit h.root
  have hopens : OpensDraft w tree x ↔ OpensDraft w w.tree x := by
    rw [OpensDraft, OpensDraft, h.folders]
  rcases hvisit.own (by rw [h.folders, hfree]) with
    ⟨hfile, hcopy⟩ | ⟨hoffer, hcopy, ⟨hopen, hfile⟩ | ⟨hshut, hfile⟩⟩
  · left
    exact ⟨hfolders, hroot, h.offers, hfile, fun hn => hcopy.trans (h.copy hn), h.opens⟩
  · right
    refine ⟨hfolders, hroot, fun k hk => ?_, ?_, fun _ => hcopy, fun _ => hopens.mp hopen⟩
    · rcases Nat.lt_succ_iff_lt_or_eq.mp hk with hk | rfl
      · exact h.offers k hk
      · exact hoffer
    · rw [Function.iterate_succ_apply']
      exact hfile
  · -- where no draft can be opened now none could be opened before, so this is still round zero
    left
    have hzero : ¬ 0 < n := fun hn => hshut (hopens.mpr (h.opens hn))
    exact ⟨hfolders, hroot, h.offers, hfile, fun hn => absurd hn hzero, h.opens⟩

theorem stops_cons (path : Path) (paths : List Path) :
    w.stops (path :: paths) = w.stops [path] ++ w.stops paths :=
  List.filterMap_append (l := [path])

/-- Work on one path takes a file at most as many rounds on as the path leads to it. -/
theorem Round.step {p : Progress} (h : Round w r x old n p.tree) (hw : w.Usual)
    (hbackup : r.backup = true) (hne : x ≠ []) (path : Path)
    (hx : Sheltered w (w.stops [path]) x) :
    ∃ m ≤ n + (w.stops [path]).count x, Round w r x old m (runFile w r path p).1.tree := by
  have hstay : ∀ status, ∃ m ≤ n + (w.stops [path]).count x,
      Round w r x old m (p.report path status).tree :=
    fun _ => ⟨n, Nat.le_add_right _ _, h⟩
  rw [runFile]
  cases hcodec : r.codec with
  | error c => exact ⟨n, Nat.le_add_right _ _, h⟩
  | ok encoding =>
    dsimp only
    cases hplace : p.tree.locate w.cwd path with
    | missing => exact hstay _
    | tooLong => exact hstay _
    | place y =>
      -- no visit makes a directory, so the path still leads where it led before the run
      have hstop : w.stops [path] = [y] := by
        rw [World.stops, List.filterMap_cons, ← Tree.locate_congr h.folders, hplace]
        rfl
      rw [hstop] at hx ⊢
      dsimp only
      cases hread : p.tree.read? y with
      | none => exact ⟨n, Nat.le_add_right _ _, h⟩
      | some bytes =>
        have hy : y ≠ [] := Tree.ne_nil_of_read h.root hread
        have hvisit := runBytes_visited (p := p) hw path hbackup hread hy hcodec
        by_cases hsame : x = y
        · subst hsame
          obtain rfl : bytes = r.reworked^[n] old :=
            Option.some.inj (hread.symm.trans h.file)
          rw [List.count_singleton_self]
          rcases h.visit hne hx.free hvisit with hround | hround
          · exact ⟨n, Nat.le_succ n, hround⟩
          · exact ⟨n + 1, Nat.le_refl _, hround⟩
        · -- another file: what it makes beside itself is neither this file nor its copy
          have hmem : y ∈ [y] := List.mem_singleton_self y
          refine ⟨n, Nat.le_add_right _ _, h.pass hvisit hy hsame (hx.not_byproduct hmem) ?_
            (hx.copy_not_byproduct hw hne hy hsame hmem)⟩
          rintro rfl
          exact hx.copy hmem

/-- Work on all paths takes a file at most as many rounds on as paths lead to it. -/
theorem Round.run {paths : List Path} {p : Progress} (h : Round w r x old n p.tree) (hw : w.Usual)
    (hbackup : r.backup = true) (hne : x ≠ []) (hx : Sheltered w (w.stops paths) x) :
    ∃ m ≤ n + (w.stops paths).count x, Round w r x old m (runFiles w r paths p).1.tree := by
  induction paths generalizing n p with
  | nil => exact ⟨n, Nat.le_add_right _ _, h⟩
  | cons path paths ih =>
    rw [stops_cons] at hx ⊢
    rw [List.count_append]
    obtain ⟨k, hk, hround⟩ := h.step hw hbackup hne path
      (hx.mono fun y hy => List.mem_append_left _ hy)
    rw [runFiles]
    split
    · -- a failure has ended the run
      exact ⟨n, by omega, h⟩
    · cases hstep : runFile w r path p with
      | mk q crash =>
        rw [hstep] at hround
        cases crash with
        | some c => exact ⟨k, by omega, hround⟩
        | none =>
          obtain ⟨m, hm, hend⟩ := ih hround (hx.mono fun y hy => List.mem_append_right _ hy)
          exact ⟨m, by omega, hend⟩

theorem runFormat_tree (w : World) (r : Request) :
    (runFormat w r).tree = w.tree ∨ (runFormat w r).tree = (runRequest w r).tree := by
  rw [runFormat]
  split
  · exact .inl rfl
  · split
    · split
      · exact .inl rfl
      · exact .inl rfl
    · split
      · left
        rw [runFilter]
        dsimp only
        split
        · split
          · rfl
          · rfl
        · split
          · rfl
          · rfl
      · exact .inr rfl

/-- The tree that a run leaves is that of the work on its files. -/
theorem runRequest_tree {found : Targets} (h : r.targets w = .ok found) :
    ∃ p : Progress, p.tree = w.tree ∧
      (runRequest w r).tree = (runFiles w r found.files p).1.tree := by
  refine ⟨⟨w.tree, if r.verbose then r.note found.files.length else [], [],
    found.missing.map fun m => ⟨m, .failed "不存在".toList⟩⟩, rfl, ?_⟩
  rw [runRequest, h]
  dsimp only
  split
  · next heq => rw [heq]
  · next heq => rw [heq]

theorem Round.request (hw : w.Usual) (hbackup : r.backup = true) (hne : x ≠ [])
    (hx : Sheltered w (r.stops w) x) (hold : w.tree.read? x = some old) :
    ∃ n ≤ (r.stops w).count x, Round w r x old n (runFormat w r).tree := by
  have hstart : Round w r x old 0 w.tree := .start hw hold
  rcases runFormat_tree w r with htree | htree
  · rw [htree]
    exact ⟨0, Nat.zero_le _, hstart⟩
  · rw [htree]
    rw [Request.stops] at hx ⊢
    cases htargets : r.targets w with
    | error c =>
      rw [runRequest, htargets]
      exact ⟨0, Nat.zero_le _, hstart⟩
    | ok found =>
      rw [htargets] at hx
      dsimp only at hx ⊢
      obtain ⟨p, hp, hrun⟩ := runRequest_tree htargets
      have hbegin : Round w r x old 0 p.tree := by
        rw [hp]
        exact hstart
      obtain ⟨m, hm, hend⟩ := hbegin.run hw hbackup hne hx
      refine ⟨m, by omega, ?_⟩
      rw [hrun]
      exact hend

end

/-- After a run a file has its content from before the run, or its copy has it. -/
def Recoverable (w : World) (o : Outcome) (x : Place) : Prop :=
  ∀ old, w.tree.read? x = some old →
    o.tree.read? x = some old ∨ o.tree.read? (x.copy w) = some old

/-- However often and by whatever paths a run with copies comes to a file, the file is formatted at
most that often, and its copy is one round behind it. So the content from before the run is kept if
the run comes to the file once, or if the second visit finds nothing to change. -/
theorem copy_holds_last_round {w : World} {r : Request} {x : Place} {old : Bytes} (hw : w.Usual)
    (hbackup : r.backup = true) (hx : Sheltered w (r.stops w) x)
    (hold : w.tree.read? x = some old) :
    (∃ n ≤ (r.stops w).count x, (∀ k < n, r.offer (r.reworked^[k] old) ≠ none) ∧
      (runFormat w r).tree.read? x = some (r.reworked^[n] old) ∧
      (0 < n → (runFormat w r).tree.read? (x.copy w) = some (r.reworked^[n - 1] old))) ∧
    ((r.stops w).count x ≤ 1 ∨ r.offer (r.reworked old) = none →
      Recoverable w (runFormat w r) x) := by
  have hne : x ≠ [] := Tree.ne_nil_of_read hw.root hold
  obtain ⟨n, hn, hround⟩ := Round.request hw hbackup hne hx hold
  refine ⟨⟨n, hn, hround.offers, hround.file, hround.copy⟩, fun honce old' hold' => ?_⟩
  obtain rfl : old = old' := Option.some.inj (hold.symm.trans hold')
  have hle : n ≤ 1 := by
    rcases honce with hcount | hdone
    · omega
    · by_contra hmore
      exact hround.offers 1 (by omega) hdone
  obtain rfl | rfl : n = 0 ∨ n = 1 := by omega
  · exact .inl hround.file
  · exact .inr (hround.copy (by omega))

/-- The script of the directory with one script. -/
def script : Place :=
  ["d".toList, "a.vbs".toList]

/-- The request to format a directory and, once more, the script in it. -/
def formatOverlapping : Request :=
  { paths := [⟨['/'], ["d".toList]⟩, ⟨[], script⟩] }

theorem stops_overlapping : formatOverlapping.stops oneScript = [script, script] := by
  decide +kernel

theorem sheltered_script :
    oneScript.Usual ∧ Sheltered oneScript (formatOverlapping.stops oneScript) script := by
  rw [stops_overlapping]
  refine ⟨⟨by decide, by decide, by decide⟩, ?_, ?_, by decide, by decide⟩
  · intro y hy
    obtain rfl : y = script := by simpa using hy
    decide
  · intro y hy
    obtain rfl : y = script := by simpa using hy
    decide

/-- A second visit finds nothing to change in the script, and so the copy keeps its old content. -/
theorem overlapping_recoverable :
    formatOverlapping.stops oneScript = [script, script] ∧
      formatOverlapping.offer (formatOverlapping.reworked (oneScript.content script)) = none ∧
      (runFormat oneScript formatOverlapping).tree.read? script ≠
        some (oneScript.content script) ∧
      (runFormat oneScript formatOverlapping).tree.read? (script.copy oneScript) =
        some (oneScript.content script) := by
  obtain ⟨hw, hx⟩ := sheltered_script
  have hold : oneScript.tree.read? script = some (oneScript.content script) := by decide
  have hdone : formatOverlapping.offer
      (formatOverlapping.reworked (oneScript.content script)) = none := by decide +kernel
  have hchanged : (runFormat oneScript formatOverlapping).tree.read? script ≠
      some (oneScript.content script) := by decide +kernel
  have hkept := (copy_holds_last_round hw rfl hx hold).2 (.inr hdone)
  exact ⟨stops_overlapping, hdone, hchanged, (hkept _ hold).resolve_left hchanged⟩

/-- A file with code behind a delimiter and code on the next line. -/
def delimitedFile : World :=
  { oneScript with
    tree := ⟨[(["a.vbs".toList], delimitedThenPlain.flatMap Encoding.utf8Bytes)], []⟩ }

/-- The request to format the file twice. -/
def formatTwice : Request :=
  { paths := [⟨[], ["a.vbs".toList]⟩, ⟨[], ["a.vbs".toList]⟩] }

/-- The second visit moves a comment once more, and its copy takes the place of the first. -/
theorem tree_delimited_twice :
    (runFormat delimitedFile formatTwice).tree =
        ⟨[(["a.vbs".toList], "<% x '\nx    '".toList.flatMap Encoding.utf8Bytes),
          (["a.bak.20240102-030405.vbs".toList],
            "<% x '\nx   '".toList.flatMap Encoding.utf8Bytes)], []⟩ ∧
      (runFormat delimitedFile formatTwice).ending = .exit 0 := by
  decide

theorem delimited_twice_not_recoverable :
    formatTwice.check = false ∧ formatTwice.backup = true ∧ delimitedFile.Usual ∧
      (runFormat delimitedFile formatTwice).ending = .exit 0 ∧
      ¬ Recoverable delimitedFile (runFormat delimitedFile formatTwice) ["a.vbs".toList] := by
  obtain ⟨htree, hexit⟩ := tree_delimited_twice
  refine ⟨rfl, rfl, ⟨by decide, by decide, by decide⟩, hexit, fun h => ?_⟩
  have hold : delimitedFile.tree.read? ["a.vbs".toList] =
      some (delimitedThenPlain.flatMap Encoding.utf8Bytes) := by decide
  have hkept := h _ hold
  rw [htree] at hkept
  revert hkept
  decide

end VbTidy
