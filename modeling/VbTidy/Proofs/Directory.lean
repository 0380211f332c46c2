import VbTidy.Proofs.Files

/-
A run over one directory. What becomes of a file is settled by its own content at the start
(`verdict`), whatever the run does to other files: their copies and drafts have names of their own,
so that no file that is still to come is touched (`Kept`). One file takes the run one step on
(`Kept.step`), and all files in a row give reports, exit code and tree that are those of the files
one by one (`directory_by_file`).
-/
namespace VbTidy

/-! ## One file by itself -/

/-- What becomes of a file whose text has been formatted. -/
def Request.statusOf (r : Request) (raw out : Text) : Status :=
  if out = raw then .fine else if r.check then .wouldChange else .changed

/-- What becomes of a file with a content. -/
def verdict (r : Request) (bytes : Bytes) : Status :=
  match Encoding.utf8.decode bytes with
  | .error f => .failed f.message
  | .ok raw =>
    match format r.settings raw with
    | .error f => .failed f.message
    | .ok f => r.statusOf raw f.text

/-- The formatted content of a file; one that cannot be formatted keeps its own. -/
def rewritten (r : Request) (bytes : Bytes) : Bytes :=
  match Encoding.utf8.decode bytes with
  | .error _ => bytes
  | .ok raw =>
    match format r.settings raw with
    | .error _ => bytes
    | .ok f => f.text.flatMap Encoding.utf8Bytes

section
variable {r : Request} {bytes : Bytes} {raw : Text}

theorem verdict_undecodable {f : CodecFault} (h : Encoding.utf8.decode bytes = .error f) :
    verdict r bytes = .failed f.message := by
  rw [verdict, h]

theorem verdict_fault {f : Fault} (h : Encoding.utf8.decode bytes = .ok raw)
    (hf : format r.settings raw = .error f) : verdict r bytes = .failed f.message := by
  rw [verdict, h]
  dsimp only
  rw [hf]

theorem verdict_formatted {f : Formatted} (h : Encoding.utf8.decode bytes = .ok raw)
    (hf : format r.settings raw = .ok f) :
    verdict r bytes = r.statusOf raw f.text ∧
      rewritten r bytes = f.text.flatMap Encoding.utf8Bytes := by
  rw [verdict, rewritten, h]
  dsimp only
  rw [hf]
  exact ⟨rfl, rfl⟩

/-- A file that changes is one that can be read and formatted, to another text. -/
theorem of_verdict_changed (h : verdict r bytes = .changed) :
    ∃ raw f, Encoding.utf8.decode bytes = .ok raw ∧ format r.settings raw = .ok f ∧
      f.text ≠ raw ∧ r.check = false ∧
      Encoding.utf8.encode f.text = .ok (rewritten r bytes) := by
  cases hdecode : Encoding.utf8.decode bytes with
  | error f =>
    rw [verdict_undecodable hdecode] at h
    cases h
  | ok raw =>
    cases hformat : format r.settings raw with
    | error f =>
      rw [verdict_fault hdecode hformat] at h
      cases h
    | ok f =>
      obtain ⟨hverdict, hnew⟩ := verdict_formatted hdecode hformat
      rw [hverdict, Request.statusOf] at h
      refine ⟨raw, f, rfl, hformat, fun heq => ?_, ?_, ?_⟩
      · rw [if_pos heq] at h
        cases h
      · cases hcheck : r.check with
        | false => rfl
        | true => split at h <;> simp_all
      · rw [hnew]
        rfl

end

/-- The content of a file before the run. -/
def World.content (w : World) (at_ : Place) : Bytes :=
  (w.tree.read? at_).getD []

/-- Whether a run writes a file. -/
def Saved (w : World) (r : Request) (at_ : Place) : Prop :=
  verdict r (w.content at_) = .changed

theorem ok_of_bind {α β : Type} {x : Except Fault α} {f : α → Except Fault β} {b : β}
    (h : x >>= f = .ok b) : ∃ a, x = .ok a ∧ f a = .ok b := by
  cases x with
  | error e => cases h
  | ok a => exact ⟨a, rfl, h⟩

theorem format_changed {settings : Settings} {raw : Text} {f : Formatted}
    (h : format settings raw = .ok f) : f.changed = (f.text != raw) := by
  obtain ⟨style, _, hstyle, _⟩ := format_ok h
  rw [format_outcome hstyle] at h
  split at h
  · obtain ⟨worked, _, h⟩ := ok_of_bind h
    obtain ⟨text, _, h⟩ := ok_of_bind h
    obtain rfl := Except.ok.inj h
    rfl
  · cases h

/-- The elements of a list up to the first of a kind, with that one. -/
def upTo {α : Type} (p : α → Bool) : List α → List α
  | [] => []
  | a :: as => a :: if p a then [] else upTo p as

/-- The files that a run works on: all, or those up to the first failure. -/
def World.worked (w : World) (r : Request) (files : List Place) : List Place :=
  if r.failFast then upTo (fun at_ => (verdict r (w.content at_)).isFailed) files else files

/-- The reports on files by their own content. -/
def World.reportsOn (w : World) (r : Request) (files : List Place) : List FileReport :=
  files.map fun at_ => ⟨at_.path, verdict r (w.content at_)⟩

/-- The places that saving a file creates. -/
def created (w : World) (r : Request) (at_ : Place) : List Place :=
  at_.draft w :: if r.backup then [at_.copy w] else []

/-- A tree of files, each at one place, in which the files are found under their own paths, and in
which nothing stands where a run puts copies and drafts, and the names of these are not too long. -/
structure Undisturbed (w : World) (r : Request) (files : List Place) : Prop where
  once : w.tree.places.Nodup
  found : ∀ at_ ∈ files, w.tree.locate w.cwd at_.path = .place at_
  free : ∀ at_ ∈ files, Saved w r at_ → ∀ x ∈ created w r at_,
    w.tree.read? x = none ∧ w.tree.isFolder x = false
  short : ∀ at_ ∈ files, Saved w r at_ → ∀ x ∈ created w r at_, byteLength x.name ≤ longestName
  stamp : '.' ∉ w.stamp
  process : '.' ∉ w.process

/-! ## One step of the run -/

/-- The tree after a file is saved. -/
def savedTree (w : World) (r : Request) (at_ : Place) (old new : Bytes) (tree : Tree) : Tree :=
  (if r.backup then tree.write (at_.copy w) old else tree).write at_ new

theorem read?_savedTree (w : World) (r : Request) (at_ x : Place) (old new : Bytes) (tree : Tree) :
    (savedTree w r at_ old new tree).read? x =
      if x = at_ then some new
      else if r.backup = true ∧ x = at_.copy w then some old else tree.read? x := by
  rw [savedTree, Tree.read?_write]
  split
  · rfl
  · cases r.backup with
    | false => simp
    | true =>
      rw [if_pos rfl, Tree.read?_write]
      simp

theorem isFolder_savedTree {w : World} {r : Request} {at_ : Place} {old new : Bytes} {tree : Tree}
    (hfile : tree.isFile at_ = true) (hne : at_ ≠ []) (x : Place) :
    (savedTree w r at_ old new tree).isFolder x = tree.isFolder x := by
  rw [savedTree]
  cases r.backup with
  | false => exact Tree.isFolder_write _ hfile hne (.inl rfl) x
  | true =>
    have hstill := Tree.isFile_write hfile (at_.copy w) old
    rw [if_pos rfl, Tree.isFolder_write _ hstill hne (.inl rfl)]
    exact Tree.isFolder_write _ hfile hne (.inr ⟨_, rfl⟩) x

theorem folders_savedTree (w : World) (r : Request) (at_ : Place) (old new : Bytes) (tree : Tree) :
    (savedTree w r at_ old new tree).folders = tree.folders := by
  rw [savedTree]
  cases r.backup with
  | false => rfl
  | true => rfl

/-- A file of a tree that can be saved without a fault. -/
structure Savable (w : World) (r : Request) (at_ : Place) (old : Bytes) (tree : Tree) : Prop where
  read : tree.read? at_ = some old
  ne_nil : at_ ≠ []
  draft : tree.read? (at_.draft w) = none
  apart : at_.draft w ≠ at_.copy w
  folder : ∀ x ∈ created w r at_, tree.isFolder x = false
  short : ∀ x ∈ created w r at_, byteLength x.name ≤ longestName

theorem Place.name_beside (at_ : Place) (n : Text) : (at_.beside n).name = n := by
  rw [Place.name, Place.beside, List.getLast?_concat]
  rfl

theorem saveFile_tree {w : World} {r : Request} {at_ : Place} {old : Bytes} {p : Progress}
    (path : Path) (text : Text) (h : Savable w r at_ old p.tree) :
    saveFile w r .utf8 path at_ text p =
      { p with tree := savedTree w r at_ old (text.flatMap Encoding.utf8Bytes) p.tree }.report path
        .changed := by
  have hdraft : at_.draft w ∈ created w r at_ := by simp [created]
  have hdraftShort : byteLength (draftName w.process at_.name) ≤ longestName := by
    have := h.short (at_.draft w) hdraft
    rwa [Place.draft, Place.name_beside] at this
  have hdraftFolder := h.folder (at_.draft w) hdraft
  rw [saveFile, savedTree]
  cases hbackup : r.backup with
  | false =>
    simp only [Bool.false_eq_true, if_false, Encoding.encode]
    rw [Tree.draftFault_eq_none_iff.mpr ⟨hdraftShort, hdraftFolder⟩, Tree.replace_fresh h.draft]
  | true =>
    have hcopy : at_.copy w ∈ created w r at_ := by simp [created, hbackup]
    have hcopyShort : byteLength (backupName w.stamp at_.name) ≤ longestName := by
      have := h.short (at_.copy w) hcopy
      rwa [Place.copy, Place.name_beside] at this
    rw [if_pos rfl, Tree.backup_fresh h.read (h.folder (at_.copy w) hcopy) hcopyShort]
    simp only [if_true, Encoding.encode]
    have hfile : p.tree.isFile at_ = true := by
      rw [Tree.isFile, h.read]
      rfl
    rw [Tree.draftFault_eq_none_iff.mpr ⟨hdraftShort, _⟩, Tree.replace_fresh]
    · rfl
    · show (p.tree.write (at_.copy w) old).read? (at_.draft w) = none
      rw [Tree.read?_write, if_neg h.apart]
      exact h.draft
    · rw [Tree.isFolder_write old hfile h.ne_nil (.inr ⟨_, rfl⟩)]
      exact hdraftFolder

/-- A formatted file is reported by its text, and it is saved exactly if that is that it changed. -/
theorem finishFile_verdict {w : World} {r : Request} {path : Path} {at_ : Place} {bytes : Bytes}
    {raw : Text} {f : Formatted} {p : Progress} (hchanged : f.changed = (f.text != raw))
    (hsave : r.statusOf raw f.text = .changed → Savable w r at_ bytes p.tree) :
    (finishFile w r .utf8 path at_ f p).reports = p.reports ++ [⟨path, r.statusOf raw f.text⟩] ∧
      ((finishFile w r .utf8 path at_ f p).tree =
        if r.statusOf raw f.text = .changed then
          savedTree w r at_ bytes (f.text.flatMap Encoding.utf8Bytes) p.tree
        else p.tree) ∧
      (r.verbose = false → (finishFile w r .utf8 path at_ f p).output = p.output) := by
  obtain ⟨p', ⟨hreports, htree, houtput⟩, hfinish⟩ := finishFile_eq w r .utf8 path at_ f p
  rw [hfinish, hchanged, ← hreports]
  rw [← htree] at hsave ⊢
  unfold Request.statusOf at hsave ⊢
  by_cases hsame : f.text = raw
  · simpa [hsame, Progress.report] using houtput
  · have hne : (f.text != raw) = true := bne_iff_ne.mpr hsame
    cases hcheck : r.check with
    | true => simpa [hsame, Progress.report] using houtput
    | false =>
      simp only [hsame, hcheck, hne, Bool.not_true, Bool.false_eq_true, if_false, if_true] at hsave ⊢
      rw [saveFile_tree path f.text (hsave trivial)]
      exact ⟨rfl, rfl, houtput⟩

/-- Work on a file that does not end the run reports the verdict on its content, and saves the file
exactly if that is that it changed. -/
theorem runBytes_verdict {w : World} {r : Request} {path : Path} {at_ : Place} {bytes : Bytes}
    {p q : Progress} (hrun : runBytes w r .utf8 path at_ bytes p = (q, none))
    (hsave : verdict r bytes = .changed → Savable w r at_ bytes p.tree) :
    q.reports = p.reports ++ [⟨path, verdict r bytes⟩] ∧
      (q.tree = if verdict r bytes = .changed then
        savedTree w r at_ bytes (rewritten r bytes) p.tree else p.tree) ∧
      (r.verbose = false → q.output = p.output) := by
  cases hdecode : Encoding.utf8.decode bytes with
  | error f =>
    rw [runBytes, hdecode] at hrun
    obtain rfl := (Prod.mk.inj hrun).1
    rw [verdict_undecodable hdecode]
    exact ⟨rfl, rfl, fun _ => rfl⟩
  | ok raw =>
    obtain ⟨p', ⟨hreports, htree, houtput⟩, hok, herror⟩ := runBytes_eq w r path at_ p hdecode
    rw [← hreports, ← houtput]
    rw [← htree] at hsave ⊢
    cases hformat : format r.settings raw with
    | error f =>
      rw [herror f hformat] at hrun
      rw [verdict_fault hdecode hformat]
      split at hrun
      · obtain rfl := (Prod.mk.inj hrun).1
        exact ⟨rfl, rfl, fun _ => rfl⟩
      · cases (Prod.mk.inj hrun).2
    | ok f =>
      rw [hok f hformat] at hrun
      obtain rfl := (Prod.mk.inj hrun).1
      obtain ⟨hverdict, hnew⟩ := verdict_formatted hdecode hformat
      rw [hverdict, hnew]
      rw [hverdict] at hsave
      exact finishFile_verdict (format_changed hformat) hsave

/-- A run after some files: it has reported on each by its own content, the files that it saved have
their formatted content and their old content in the copy, and nothing else has changed. -/
structure Kept (w : World) (r : Request) (done : List Place) (p : Progress) : Prop where
  reports : p.reports = w.reportsOn r done
  output : r.verbose = false → p.output = []
  folders : p.tree.folders = w.tree.folders
  isFolder : ∀ x, p.tree.isFolder x = w.tree.isFolder x
  written : ∀ at_ ∈ done, Saved w r at_ → p.tree.read? at_ = some (rewritten r (w.content at_))
  copied : ∀ at_ ∈ done, Saved w r at_ → r.backup = true →
    p.tree.read? (at_.copy w) = w.tree.read? at_
  same : ∀ x, (∀ at_ ∈ done, Saved w r at_ → x ≠ at_ ∧ (r.backup = true → x ≠ at_.copy w)) →
    p.tree.read? x = w.tree.read? x

/-- What is known of files that a search has found. -/
structure IsScript (w : World) (at_ : Place) : Prop where
  isFile : w.tree.isFile at_ = true
  ne_nil : at_ ≠ []
  suffix : (splitSuffix at_.name).2 ≠ []

theorem IsScript.read {w : World} {at_ : Place} (h : IsScript w at_) : w.tree.read? at_ = some (w.content at_) := by
  have hfile := h.isFile
  rw [Tree.isFile, Option.isSome_iff_exists] at hfile
  obtain ⟨bytes, hbytes⟩ := hfile
  rw [World.content, hbytes]
  rfl

section
variable {w : World} {r : Request}

theorem Kept.report {done : List Place} {p q : Progress} {at_ : Place} (h : Kept w r done p)
    (hreports : q.reports = p.reports ++ [⟨at_.path, verdict r (w.content at_)⟩])
    (houtput : r.verbose = false → q.output = p.output) (htree : q.tree = p.tree)
    (hsaved : ¬ Saved w r at_) : Kept w r (done ++ [at_]) q where
  reports := by rw [hreports, h.reports, World.reportsOn, World.reportsOn, List.map_append]; rfl
  output hquiet := (houtput hquiet).trans (h.output hquiet)
  folders := by rw [htree, h.folders]
  isFolder x := by rw [htree, h.isFolder]
  written b hb hs := by
    rcases List.mem_append.mp hb with hb | hb
    · rw [htree, h.written b hb hs]
    · rw [List.mem_singleton.mp hb] at hs
      exact absurd hs hsaved
  copied b hb hs := by
    rcases List.mem_append.mp hb with hb | hb
    · rw [htree]
      exact h.copied b hb hs
    · rw [List.mem_singleton.mp hb] at hs
      exact absurd hs hsaved
  same x hx := by
    rw [htree]
    exact h.same x fun b hb => hx b (List.mem_append_left _ hb)

/-- A file is saved that no other file's copy or draft can meet. -/
theorem Kept.save {done : List Place} {p q : Progress} {at_ : Place} (h : Kept w r done p)
    (hscript : ∀ b ∈ at_ :: done, IsScript w b) (hnew : at_ ∉ done) (hstamp : '.' ∉ w.stamp)
    (hfree : ∀ b ∈ at_ :: done, Saved w r b → r.backup = true → w.tree.read? (b.copy w) = none)
    (hreports : q.reports = p.reports ++ [⟨at_.path, verdict r (w.content at_)⟩])
    (houtput : r.verbose = false → q.output = p.output) (hsaved : Saved w r at_)
    (htree : q.tree = savedTree w r at_ (w.content at_) (rewritten r (w.content at_)) p.tree) :
    Kept w r (done ++ [at_]) q := by
  have hat := hscript at_ List.mem_cons_self
  -- the copies of saved files lie where there was no file
  have hcopy : ∀ a ∈ at_ :: done, ∀ b ∈ at_ :: done, Saved w r b → r.backup = true →
      a ≠ b.copy w := by
    rintro a ha b hb hs hbackup rfl
    have := (hscript _ ha).read
    rw [hfree b hb hs hbackup] at this
    cases this
  have hread : ∀ x, q.tree.read? x =
      if x = at_ then some (rewritten r (w.content at_))
      else if r.backup = true ∧ x = at_.copy w then some (w.content at_) else p.tree.read? x := by
    intro x
    rw [htree, read?_savedTree]
  have hfileP : p.tree.isFile at_ = true := by
    rw [Tree.isFile, h.same at_, hat.read]
    · rfl
    · intro b hb hs
      exact ⟨fun heq => hnew (heq ▸ hb),
        hcopy at_ List.mem_cons_self b (List.mem_cons_of_mem _ hb) hs⟩
  exact {
    reports := by rw [hreports, h.reports, World.reportsOn, World.reportsOn, List.map_append]; rfl
    output := fun hquiet => (houtput hquiet).trans (h.output hquiet)
    folders := by rw [htree, folders_savedTree, h.folders]
    isFolder := fun x => by rw [htree, isFolder_savedTree hfileP hat.ne_nil, h.isFolder]
    written := by
      intro b hb hs
      rw [hread]
      rcases List.mem_append.mp hb with hb | hb
      · have hne : b ≠ at_ := fun heq => hnew (heq ▸ hb)
        rw [if_neg hne, if_neg, h.written b hb hs]
        rintro ⟨hbackup, heq⟩
        exact hcopy b (List.mem_cons_of_mem _ hb) at_ List.mem_cons_self hsaved hbackup heq
      · rw [if_pos (List.mem_singleton.mp hb), List.mem_singleton.mp hb]
    copied := by
      intro b hb hs hbackup
      rw [hread]
      rcases List.mem_append.mp hb with hb | hb
      · have hmem := List.mem_cons_of_mem at_ hb
        rw [if_neg (hcopy at_ List.mem_cons_self b hmem hs hbackup).symm, if_neg,
          h.copied b hb hs hbackup]
        rintro ⟨_, heq⟩
        have hb' := hscript b hmem
        have := copy_inj hstamp hb'.suffix hat.suffix hb'.ne_nil hat.ne_nil heq
        exact hnew (this ▸ hb)
      · obtain rfl := List.mem_singleton.mp hb
        have hmem : b ∈ b :: done := List.mem_cons_self
        rw [if_neg (hcopy b hmem b hmem hs hbackup).symm, if_pos ⟨hbackup, rfl⟩, hat.read]
    same := by
      intro x hx
      obtain ⟨hne, hnecopy⟩ := hx at_ (by simp) hsaved
      rw [hread, if_neg hne, if_neg fun hc => hnecopy hc.1 hc.2]
      exact h.same x fun b hb => hx b (List.mem_append_left _ hb) }

/-- One file takes the run one step on. -/
theorem Kept.step {done : List Place} {p : Progress} {at_ : Place} (h : Kept w r done p)
    (hcodec : r.codec = .ok .utf8) (hscript : ∀ b ∈ at_ :: done, IsScript w b) (hnew : at_ ∉ done)
    (hquiet : Undisturbed w r (at_ :: done)) {q : Progress}
    (hrun : runFile w r at_.path p = (q, none)) : Kept w r (done ++ [at_]) q := by
  have hat := hscript at_ List.mem_cons_self
  have hmem : at_ ∈ at_ :: done := List.mem_cons_self
  have hcopyFree : ∀ b ∈ at_ :: done, Saved w r b → r.backup = true →
      w.tree.read? (b.copy w) = none := by
    intro b hb hs hbackup
    exact (hquiet.free b hb hs (b.copy w) (by simp [created, hbackup])).1
  have hplace : p.tree.locate w.cwd at_.path = .place at_ := by
    rw [Tree.locate_congr h.isFolder, hquiet.found at_ hmem]
  have hread : p.tree.read? at_ = some (w.content at_) := by
    rw [h.same at_, hat.read]
    intro b hb hs
    refine ⟨fun heq => hnew (heq ▸ hb), fun hbackup heq => ?_⟩
    have hnone := hcopyFree b (List.mem_cons_of_mem _ hb) hs hbackup
    rw [← heq, hat.read] at hnone
    cases hnone
  rw [runFile, hcodec] at hrun
  dsimp only at hrun
  rw [hplace] at hrun
  dsimp only at hrun
  rw [hread] at hrun
  have hsave : Saved w r at_ → Savable w r at_ (w.content at_) p.tree := by
    intro hs
    have hfree := hquiet.free at_ hmem hs
    refine ⟨hread, hat.ne_nil, ?_, draft_ne_copy hquiet.stamp hat.suffix hat.suffix hquiet.process, ?_,
      hquiet.short at_ hmem hs⟩
    · -- no file stands at the draft, and none of the copies so far
      rw [h.same]
      · exact (hfree (at_.draft w) (by simp [created])).1
      · intro b hb hs'
        have hb' := hscript b (List.mem_cons_of_mem _ hb)
        refine ⟨fun heq => ?_, fun _ =>
          draft_ne_copy hquiet.stamp hat.suffix hb'.suffix hquiet.process⟩
        have hnone := (hfree (at_.draft w) (by simp [created])).1
        rw [heq, hb'.read] at hnone
        cases hnone
    · intro x hx
      rw [h.isFolder]
      exact (hfree x hx).2
  obtain ⟨hreports, htree, houtput⟩ := runBytes_verdict hrun hsave
  by_cases hs : Saved w r at_
  · exact h.save hscript hnew hquiet.stamp hcopyFree hreports houtput hs (htree.trans (if_pos hs))
  · exact h.report hreports houtput (htree.trans (if_neg hs)) hs

/-! ## The whole run -/

theorem Undisturbed.mono {files files' : List Place} (hsub : ∀ a ∈ files', a ∈ files)
    (h : Undisturbed w r files) : Undisturbed w r files' where
  once := h.once
  found a ha := h.found a (hsub a ha)
  free a ha := h.free a (hsub a ha)
  short a ha := h.short a (hsub a ha)
  stamp := h.stamp
  process := h.process

theorem worked_cons (a : Place) (rest : List Place) :
    w.worked r (a :: rest) =
      a :: if r.failFast = true ∧ (verdict r (w.content a)).isFailed = true then []
        else w.worked r rest := by
  unfold World.worked
  cases r.failFast with
  | false => simp
  | true => simp [upTo]

theorem runFiles_stopped {p : Progress} (h : p.anyFailed = true) (hfast : r.failFast = true)
    (paths : List Path) : runFiles w r paths p = (p, none) := by
  cases paths with
  | nil => rfl
  | cons path paths => rw [runFiles, h, hfast]; rfl

theorem Kept.anyFailed {done : List Place} {p : Progress} (h : Kept w r done p) :
    p.anyFailed = done.any fun at_ => (verdict r (w.content at_)).isFailed := by
  rw [Progress.anyFailed, h.reports, World.reportsOn, List.any_map]
  rfl

theorem Kept.run {rest done : List Place} {p q : Progress} (h : Kept w r done p)
    (hcodec : r.codec = .ok .utf8) (hscript : ∀ b ∈ done ++ w.worked r rest, IsScript w b)
    (honce : (done ++ w.worked r rest).Nodup) (hquiet : Undisturbed w r (done ++ w.worked r rest))
    (hgo : r.failFast = true → p.anyFailed = false)
    (hrun : runFiles w r (rest.map Place.path) p = (q, none)) :
    Kept w r (done ++ w.worked r rest) q := by
  induction rest generalizing done p with
  | nil =>
    have hnil : w.worked r [] = [] := by
      unfold World.worked
      split <;> rfl
    rw [List.map_nil, runFiles] at hrun
    obtain rfl := (Prod.mk.inj hrun).1
    rwa [hnil, List.append_nil]
  | cons a rest ih =>
    rw [worked_cons, List.append_cons] at hscript honce hquiet ⊢
    have hsub : ∀ b ∈ a :: done, b ∈ done ++ [a] ++ (if r.failFast = true ∧
        (verdict r (w.content a)).isFailed = true then [] else w.worked r rest) := by
      intro b hb
      simp only [List.mem_append, List.mem_cons, List.not_mem_nil] at hb ⊢
      tauto
    have hstill : (p.anyFailed && r.failFast) = false := by
      cases hfast : r.failFast with
      | false => exact Bool.and_false _
      | true => rw [hgo hfast]; rfl
    rw [List.map_cons, runFiles, hstill, if_neg (by simp)] at hrun
    cases hstep : runFile w r a.path p with
    | mk p' crash =>
      rw [hstep] at hrun
      cases crash with
      | some c => cases (Prod.mk.inj hrun).2
      | none =>
        have hnew : a ∉ done := by
          intro ha
          have := (List.nodup_append.mp (List.nodup_append.mp honce).1).2.2 a ha a (by simp)
          exact this rfl
        have hnext : Kept w r (done ++ [a]) p' :=
          h.step hcodec (fun b hb => hscript b (hsub b hb)) hnew (hquiet.mono hsub) hstep
        by_cases hstop : r.failFast = true ∧ (verdict r (w.content a)).isFailed = true
        · rw [if_pos hstop, List.append_nil]
          have hfailed : p'.anyFailed = true := by
            rw [hnext.anyFailed, List.any_append]
            simp [hstop.2]
          dsimp only at hrun
          rw [runFiles_stopped hfailed hstop.1] at hrun
          obtain rfl := (Prod.mk.inj hrun).1
          exact hnext
        · rw [if_neg hstop] at hscript honce hquiet ⊢
          refine ih hnext hscript honce hquiet (fun hfast => ?_) hrun
          rw [hnext.anyFailed, List.any_append, ← h.anyFailed, hgo hfast]
          simpa [hfast] using hstop

end

/-! ## The files of a directory -/

theorem mem_scriptFiles {tree : Tree} {s : Search} {root at_ : Place} :
    at_ ∈ scriptFiles tree s root ↔
      tree.isFile at_ = true ∧ root <+: at_ ∧ at_ ≠ root ∧ s.takes (at_.drop root.length) = true := by
  rw [scriptFiles, List.mem_mergeSort, List.mem_filterMap, ← Tree.mem_places_iff, Tree.places,
    List.mem_map]
  constructor
  · rintro ⟨⟨key, bytes⟩, hf, h⟩
    dsimp only at h
    split at h
    · next hcond =>
      obtain rfl := Option.some.inj h
      simp only [Bool.and_eq_true, List.isPrefixOf_iff_prefix, bne_iff_ne] at hcond
      exact ⟨⟨(key, bytes), hf, rfl⟩, hcond.1.1, hcond.1.2, hcond.2⟩
    · cases h
  · rintro ⟨⟨f, hf, rfl⟩, hroot, hne, htakes⟩
    refine ⟨f, hf, if_pos ?_⟩
    simp [List.isPrefixOf_iff_prefix, hroot, hne, htakes]

/-- Whether a search below a directory finds a file. -/
def Search.finds (s : Search) (root at_ : Place) : Bool :=
  root.isPrefixOf at_ && at_ != root && s.takes (at_.drop root.length)

theorem scriptFiles_eq (tree : Tree) (s : Search) (root : Place) :
    scriptFiles tree s root =
      (tree.places.filter (s.finds root)).mergeSort fun a b => decide (a ≤ b) := by
  rw [Tree.places, ← List.filterMap_eq_filter, List.filterMap_map]
  rfl

theorem nodup_scriptFiles {tree : Tree} (h : tree.places.Nodup) (s : Search) (root : Place) :
    (scriptFiles tree s root).Nodup := by
  rw [scriptFiles_eq, (List.mergeSort_perm _ _).nodup_iff]
  exact h.filter _

theorem sorted_scriptFiles (tree : Tree) (s : Search) (root : Place) :
    (scriptFiles tree s root).Pairwise (· ≤ ·) := by
  have htrans : ∀ a b c : Place, decide (a ≤ b) = true → decide (b ≤ c) = true →
      decide (a ≤ c) = true := fun a b c hab hbc =>
    decide_eq_true (List.le_trans (of_decide_eq_true hab) (of_decide_eq_true hbc))
  have htotal : ∀ a b : Place, (decide (a ≤ b) || decide (b ≤ a)) = true := by
    intro a b
    rw [Bool.or_eq_true, decide_eq_true_eq, decide_eq_true_eq]
    exact List.le_total a b
  exact (List.pairwise_mergeSort htrans htotal _).imp fun hab => of_decide_eq_true hab

/-- A file that a search finds has a suffix. -/
theorem isScript_of_mem {w : World} {s : Search} {root at_ : Place}
    (hs : s.suffixes = scriptSuffixes) (h : at_ ∈ scriptFiles w.tree s root) : IsScript w at_ := by
  obtain ⟨hfile, ⟨names, rfl⟩, hne, htakes⟩ := mem_scriptFiles.mp h
  rw [List.drop_left] at htakes
  have hnames : names ≠ [] := by
    rintro rfl
    exact hne (List.append_nil root)
  refine ⟨hfile, by simp [hnames], fun hnone => ?_⟩
  rw [Search.takes, Bool.and_eq_true, Bool.and_eq_true] at htakes
  have hsuffix := htakes.1.2
  have hname : (root ++ names).name = names.getLast?.getD [] := by
    rw [Place.name, List.getLast?_append_of_ne_nil _ hnames]
  rw [hasSuffix, ← hname, hnone, hs] at hsuffix
  exact absurd hsuffix (by decide)

/-- An outcome that is put together from the files one by one. The files that are worked on are
reported on in order, each by its own content. A file that changes holds its formatted text, and its
old content stands beside it if copies are asked for. Every other file has its old content, there are
no new files but the copies, and the exit code tells whether a file failed or would change. -/
structure ByFile (w : World) (r : Request) (files : List Place) (o : Outcome) : Prop where
  sorted : files.Pairwise (· ≤ ·)
  printed : ∃ note, (r.verbose = false → note = []) ∧
    o.output = note ++ reportLines r.quiet (w.reportsOn r (w.worked r files)) ++
      summaryLine (w.reportsOn r (w.worked r files))
  written : ∀ at_ ∈ w.worked r files, Saved w r at_ → ∃ raw f content,
    Encoding.utf8.decode (w.content at_) = .ok raw ∧ format r.settings raw = .ok f ∧
      Encoding.utf8.encode f.text = .ok content ∧ o.tree.read? at_ = some content
  copied : ∀ at_ ∈ w.worked r files, Saved w r at_ → r.backup = true →
    w.tree.read? (at_.copy w) = none ∧ o.tree.read? (at_.copy w) = w.tree.read? at_
  copies : ∀ a ∈ w.worked r files, ∀ b ∈ w.worked r files, a.copy w = b.copy w → a = b
  kept : ∀ x, w.tree.isFile x = true → ¬ (x ∈ w.worked r files ∧ Saved w r x) →
    o.tree.read? x = w.tree.read? x
  new : ∀ x, o.tree.isFile x = true → w.tree.isFile x = true ∨
    r.backup = true ∧ ∃ at_ ∈ w.worked r files, Saved w r at_ ∧ x = at_.copy w
  folders : o.tree.folders = w.tree.folders
  exit : o.ending = .exit
    (if (w.worked r files).any fun at_ => (verdict r (w.content at_)).isFailed then 2
      else if r.check && (w.worked r files).any fun at_ =>
        verdict r (w.content at_) == .wouldChange then 1
      else 0)

theorem mem_of_mem_worked {w : World} {r : Request} {files : List Place} {a : Place}
    (h : a ∈ w.worked r files) : a ∈ files := by
  induction files with
  | nil =>
    unfold World.worked at h
    split at h
    · cases h
    · cases h
  | cons b files ih =>
    rw [worked_cons, List.mem_cons] at h
    rcases h with rfl | h
    · exact List.mem_cons_self
    · split at h
      · cases h
      · exact List.mem_cons_of_mem _ (ih h)

theorem nodup_worked {w : World} {r : Request} {files : List Place} (h : files.Nodup) :
    (w.worked r files).Nodup := by
  induction files with
  | nil =>
    unfold World.worked
    split
    · exact List.nodup_nil
    · exact List.nodup_nil
  | cons a files ih =>
    obtain ⟨ha, hfiles⟩ := List.nodup_cons.mp h
    rw [worked_cons, List.nodup_cons]
    split
    · exact ⟨List.not_mem_nil, List.nodup_nil⟩
    · exact ⟨fun hmem => ha (mem_of_mem_worked hmem), ih hfiles⟩

/-- The targets of a request for one directory. -/
theorem targets_directory {w : World} {r : Request} {d : Path} {root : Place} {s : Search}
    (hpaths : r.paths = [d]) (hsearch : r.search = .ok s)
    (hplace : w.tree.locate w.cwd d = .place root) (hroot : w.tree.isFolder root = true) :
    r.targets w = .ok ⟨(scriptFiles w.tree s root).map Place.path, []⟩ := by
  have hone : targetsOf w.tree w.cwd s d = .ok ⟨(scriptFiles w.tree s root).map Place.path, []⟩ := by
    rw [targetsOf, hplace]
    dsimp only
    rw [if_pos hroot]
  rw [Request.targets, hsearch]
  show (VbTidy.targets w.tree w.cwd s r.paths).mapError Crash.nameTooLong = _
  rw [targets, hpaths, List.mapM_cons, List.mapM_nil, hone]
  simp [bind, Except.bind, pure, Except.pure, Except.mapError]

section
variable {w : World} {r : Request} {d : Path} {root : Place} {s : Search} {code : Nat}

theorem search_suffixes (h : r.search = .ok s) : s.suffixes = scriptSuffixes := by
  rw [Request.search] at h
  split at h
  · cases h
  · obtain rfl := Except.ok.inj h
    rfl

/-- What is kept from file to file gives the outcome when the run is over. -/
theorem Kept.byFile {files : List Place} {p : Progress} (h : Kept w r (w.worked r files) p)
    (hsorted : files.Pairwise (· ≤ ·)) (hscript : ∀ b ∈ w.worked r files, IsScript w b)
    (hquiet : Undisturbed w r (w.worked r files)) :
    ByFile w r files ⟨p.output ++ reportLines r.quiet p.reports ++ summaryLine p.reports, p.errors,
      p.tree, .exit (exitCode r p.reports)⟩ := by
  have hfree : ∀ b ∈ w.worked r files, Saved w r b → r.backup = true →
      w.tree.read? (b.copy w) = none := by
    intro b hb hs hbackup
    exact (hquiet.free b hb hs (b.copy w) (by simp [created, hbackup])).1
  exact {
    sorted := hsorted
    printed := ⟨p.output, h.output, by rw [h.reports]⟩
    written := by
      intro a ha hs
      obtain ⟨raw, f, hdecode, hformat, _, _, hencode⟩ := of_verdict_changed hs
      exact ⟨raw, f, _, hdecode, hformat, hencode, h.written a ha hs⟩
    copied := fun a ha hs hbackup => ⟨hfree a ha hs hbackup, h.copied a ha hs hbackup⟩
    copies := fun a ha b hb => copy_inj hquiet.stamp (hscript a ha).suffix (hscript b hb).suffix
      (hscript a ha).ne_nil (hscript b hb).ne_nil
    kept := by
      intro x hx hsaved
      apply h.same
      intro b hb hs
      refine ⟨?_, ?_⟩
      · rintro rfl
        exact hsaved ⟨hb, hs⟩
      · rintro hbackup rfl
        rw [Tree.isFile, hfree b hb hs hbackup] at hx
        cases hx
    new := by
      intro x hx
      by_contra hnone
      rw [not_or, not_and_or] at hnone
      -- a place that is neither a file of old nor a copy has not been written to
      have hsame : p.tree.read? x = w.tree.read? x := by
        apply h.same
        intro b hb hs
        refine ⟨?_, fun hbackup heq => ?_⟩
        · rintro rfl
          exact hnone.1 (hscript _ hb).isFile
        · rcases hnone.2 with hno | hno
          · exact hno hbackup
          · exact hno ⟨b, hb, hs, heq⟩
      apply hnone.1
      rwa [Tree.isFile, ← hsame]
    folders := h.folders
    exit := by
      rw [exitCode, h.reports, World.reportsOn, List.any_map, List.any_map]
      rfl }

section
variable (hpaths : r.paths = [d]) (hcodec : r.codec = .ok .utf8) (hsearch : r.search = .ok s)
  (hplace : w.tree.locate w.cwd d = .place root) (hroot : w.tree.isFolder root = true)
  (hquiet : Undisturbed w r (w.worked r (scriptFiles w.tree s root)))
include hpaths hcodec hsearch hplace hroot hquiet

theorem runRequest_by_file (hexit : (runRequest w r).ending = .exit code) :
    ByFile w r (scriptFiles w.tree s root) (runRequest w r) := by
  have hscript : ∀ b ∈ w.worked r (scriptFiles w.tree s root), IsScript w b :=
    fun b hb => isScript_of_mem (search_suffixes hsearch) (mem_of_mem_worked hb)
  rw [runRequest, targets_directory hpaths hsearch hplace hroot] at hexit ⊢
  simp only [List.map_nil] at hexit ⊢
  generalize hnote : (if r.verbose = true then
    r.note ((scriptFiles w.tree s root).map Place.path).length else []) = note at hexit ⊢
  have hstart : Kept w r [] ⟨w.tree, note, [], []⟩ := {
    reports := rfl
    output := by
      intro hverbose
      rw [← hnote, hverbose]
      rfl
    folders := rfl
    isFolder := fun _ => rfl
    written := fun _ h => by cases h
    copied := fun _ h => by cases h
    same := fun _ _ => rfl }
  cases hrun : runFiles w r ((scriptFiles w.tree s root).map Place.path) ⟨w.tree, note, [], []⟩ with
  | mk p crash =>
    rw [hrun] at hexit
    cases crash with
    | some c => cases hexit
    | none =>
      have hend : Kept w r (w.worked r (scriptFiles w.tree s root)) p :=
        hstart.run hcodec hscript (nodup_worked (nodup_scriptFiles hquiet.once s root)) hquiet
          (fun _ => rfl) hrun
      exact hend.byFile (sorted_scriptFiles w.tree s root) hscript hquiet

/-- A run over a directory is put together from its files one by one, unless the settings are
refused before any file is looked at. -/
theorem directory_by_file (hfilter : r.filter = false)
    (hexit : (runFormat w r).ending = .exit code) :
    (∃ f, r.settings.indentUnit = .error f ∧ f.isSettingsFault = true ∧
      runFormat w r = ⟨[], "错误: ".toList ++ f.message ++ ['\n'], w.tree, .exit 2⟩) ∨
    ByFile w r (scriptFiles w.tree s root) (runFormat w r) := by
  by_cases hsize : (r.noIndentSize && r.settings.indentStyle == "spaces".toList) = true
  · rw [runFormat, if_pos hsize] at hexit
    cases hexit
  · cases hunit : r.settings.indentUnit with
    | error f =>
      by_cases hfault : f.isSettingsFault = true
      · refine .inl ⟨f, rfl, hfault, ?_⟩
        rw [runFormat, if_neg hsize, hunit]
        exact if_pos hfault
      · rw [runFormat, if_neg hsize, hunit] at hexit
        dsimp only at hexit
        rw [if_neg hfault] at hexit
        cases hexit
    | ok unit =>
      have hrun : runFormat w r = runRequest w r := by
        rw [runFormat, if_neg hsize, hunit, hfilter]
        rfl
      rw [hrun] at hexit ⊢
      exact .inr (runRequest_by_file hpaths hcodec hsearch hplace hroot hquiet hexit)

end

end

/-- A directory with one script in it. -/
def oneScript : World where
  tree := ⟨[(["d".toList, "a.vbs".toList], "x=1".toList.flatMap Encoding.utf8Bytes)], []⟩
  cwd := []
  input := []
  stamp := "20240102-030405".toList
  process := "7".toList

/-- The request to format it. -/
def formatDirectory : Request :=
  { paths := [⟨['/'], ["d".toList]⟩] }

theorem undisturbed_oneScript {files : List Place} (h : files = [["d".toList, "a.vbs".toList]]) :
    Undisturbed oneScript formatDirectory files := by
  subst h
  constructor
  · decide
  · decide
  · intro a ha _
    obtain rfl := List.mem_singleton.mp ha
    decide
  · intro a ha _
    obtain rfl := List.mem_singleton.mp ha
    decide
  · decide
  · decide

theorem oneScript_by_file :
    (runFormat oneScript formatDirectory).ending = .exit 0 ∧
      ∃ s, formatDirectory.search = .ok s ∧
        ByFile oneScript formatDirectory (scriptFiles oneScript.tree s ["d".toList])
          (runFormat oneScript formatDirectory) := by
  have hexit : (runFormat oneScript formatDirectory).ending = .exit 0 := by decide +kernel
  refine ⟨hexit, _, rfl, ?_⟩
  have hfiles : scriptFiles oneScript.tree { excludes := standardExcludes ++ splitPatterns [] }
      ["d".toList] = [["d".toList, "a.vbs".toList]] := by decide +kernel
  rcases directory_by_file rfl (by decide) rfl (by decide) (by decide)
      (undisturbed_oneScript hfiles) rfl hexit with ⟨f, hunit, _⟩ | h
  · cases hunit
  · exact h

end VbTidy
