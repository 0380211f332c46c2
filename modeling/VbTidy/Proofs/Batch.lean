import VbTidy.Proofs.Faults
import VbTidy.Command.Run

/-
A batch of files. Work on a file ends in one report on it, or ends the run, and the latter happens
exactly if the file holds a strange word when its turn comes (`runFile_cases`). So a run over files
that is not told to stop at a failure reports on each of them, in order, or is cut short by a strange
word (`runFiles_cases`). Nothing else that stands in a file can end a run
(`batch_ends_only_by_strange_word`).
-/
namespace VbTidy

/-! ## One file -/

/-- One report more than before, on a path. -/
def Progress.Reports (p : Progress) (path : Path) (q : Progress) : Prop :=
  ∃ status, q.reports = p.reports ++ [⟨path, status⟩]

theorem saveFile_reports (w : World) (r : Request) (encoding : Encoding) (path : Path)
    (at_ : Place) (text : Text) (p : Progress) :
    p.Reports path (saveFile w r encoding path at_ text p) := by
  rw [saveFile]
  split
  · exact ⟨_, rfl⟩
  · split
    · exact ⟨_, rfl⟩
    · split
      · exact ⟨_, rfl⟩
      · exact ⟨_, rfl⟩

/-- What a verbose run prints on a formatted file stands beside the work on it. -/
theorem finishFile_eq (w : World) (r : Request) (encoding : Encoding) (path : Path) (at_ : Place)
    (f : Formatted) (p : Progress) :
    ∃ p' : Progress, (p'.reports = p.reports ∧ p'.tree = p.tree ∧
        (r.verbose = false → p'.output = p.output)) ∧
      finishFile w r encoding path at_ f p =
        if (!f.changed) = true then p'.report path .fine
        else if r.check = true then p'.report path .wouldChange
        else saveFile w r encoding path at_ f.text p' := by
  refine ⟨_, ⟨?_, ?_, fun hquiet => ?_⟩, rfl⟩
  · split
    · rfl
    · rfl
  · split
    · rfl
    · rfl
  · rw [hquiet]
    rfl

theorem finishFile_reports (w : World) (r : Request) (encoding : Encoding) (path : Path)
    (at_ : Place) (f : Formatted) (p : Progress) :
    p.Reports path (finishFile w r encoding path at_ f p) := by
  obtain ⟨p', ⟨hreports, _, _⟩, hfinish⟩ := finishFile_eq w r encoding path at_ f p
  rw [hfinish, Progress.Reports, ← hreports]
  split
  · exact ⟨.fine, rfl⟩
  · split
    · exact ⟨.wouldChange, rfl⟩
    · exact saveFile_reports w r encoding path at_ f.text p'

/-- The work on a file that can be read goes by what formatting its text comes to; a verbose run
keeps notes beside it. -/
theorem runBytes_eq {encoding : Encoding} {bytes : Bytes} {raw : Text} (w : World) (r : Request)
    (path : Path) (at_ : Place) (p : Progress) (hdecode : encoding.decode bytes = .ok raw) :
    ∃ p' : Progress, (p'.reports = p.reports ∧ p'.tree = p.tree ∧ p'.output = p.output) ∧
      (∀ f, format r.settings raw = .ok f →
        runBytes w r encoding path at_ bytes p = (finishFile w r encoding path at_ f p', none)) ∧
      ∀ e, format r.settings raw = .error e → runBytes w r encoding path at_ bytes p =
        if e.isDocumentFault = true then (p'.report path (.failed e.message), none)
        else (p', some (.fault e)) := by
  refine ⟨if r.verbose = true then
    { p with errors := p.errors ++ noteLines (formatTraced r.settings raw).events } else p,
    ⟨?_, ?_, ?_⟩, fun f hf => ?_, fun e he => ?_⟩
  · split
    · rfl
    · rfl
  · split
    · rfl
    · rfl
  · split
    · rfl
    · rfl
  · rw [runBytes, hdecode]
    dsimp only
    rw [show (formatTraced r.settings raw).outcome = .ok f from hf]
  · rw [runBytes, hdecode]
    dsimp only
    rw [show (formatTraced r.settings raw).outcome = .error e from he]

/-- A document with a strange word in its code, that gets as far as to have it written. -/
def Escapes (style : Style) (raw : Text) : Prop :=
  (Lifting.delimiter raw).rest.length % 2 = 0 ∧ Strange style raw

/-- A file that holds such a document in the tree as it is by now. -/
def FileEscapes (w : World) (encoding : Encoding) (style : Style) (p : Progress) (path : Path) :
    Prop :=
  ∃ at_ bytes raw, p.tree.locate w.cwd path = .place at_ ∧ p.tree.read? at_ = some bytes ∧
    encoding.decode bytes = .ok raw ∧ Escapes style raw

section
variable {w : World} {r : Request} {encoding : Encoding} {style : Style}
  (hcodec : r.codec = .ok encoding) (hstyle : r.settings.style = .ok style)
include hstyle

theorem runBytes_cases (path : Path) (at_ : Place) (bytes : Bytes) (p : Progress) :
    (∃ q, runBytes w r encoding path at_ bytes p = (q, none) ∧ p.Reports path q ∧
      ∀ raw, encoding.decode bytes = .ok raw → ¬ Escapes style raw) ∨
    ∃ q word raw,
      runBytes w r encoding path at_ bytes p = (q, some (.fault (.strangeKeyword word))) ∧
      encoding.decode bytes = .ok raw ∧ Escapes style raw := by
  cases hdecode : encoding.decode bytes with
  | error f =>
    refine .inl ⟨p.report path (.failed f.message), ?_, ⟨_, rfl⟩, fun raw h => by cases h⟩
    rw [runBytes, hdecode]
  | ok raw =>
    have hno : ∀ {x}, format r.settings raw = x → (∀ e, x = .error e → e.isDocumentFault = true) →
        ∀ raw', (Except.ok raw : Except CodecFault Text) = .ok raw' → ¬ Escapes style raw' := by
      intro x hx hdoc raw' hraw hesc
      obtain rfl := Except.ok.inj hraw
      obtain ⟨e, herr, hfault⟩ := (format_escapes_iff hstyle).mpr hesc
      rw [hdoc e (hx.symm.trans herr)] at hfault
      cases hfault
    obtain ⟨p', ⟨hreports, _, _⟩, hok, herror⟩ := runBytes_eq w r path at_ p hdecode
    cases hf : format r.settings raw with
    | ok f =>
      refine .inl ⟨_, hok f hf, ?_, hno hf fun e he => by cases he⟩
      rw [Progress.Reports, ← hreports]
      exact finishFile_reports w r encoding path at_ f p'
    | error e =>
      have hrun := herror e hf
      by_cases hdoc : e.isDocumentFault = true
      · rw [if_pos hdoc] at hrun
        refine .inl ⟨_, hrun, ⟨.failed e.message, ?_⟩, hno hf fun e' he' => ?_⟩
        · rw [Progress.report, hreports]
        · rwa [← Except.error.inj he']
      · rw [if_neg hdoc] at hrun
        rcases format_error_cases hstyle hf with h | ⟨heven, hstrange, word, rfl⟩
        · exact absurd h hdoc
        · exact .inr ⟨_, word, raw, hrun, rfl, heven, hstrange⟩

include hcodec

/-- Work on a file ends in one report on it, or it ends the run, at a strange word only. -/
theorem runFile_cases (path : Path) (p : Progress) :
    (∃ q, runFile w r path p = (q, none) ∧ p.Reports path q ∧
      ¬ FileEscapes w encoding style p path) ∨
    ∃ q word, runFile w r path p = (q, some (.fault (.strangeKeyword word))) ∧
      FileEscapes w encoding style p path := by
  rw [runFile, hcodec]
  dsimp only
  split
  · rename_i at_ hplace
    split
    · rename_i bytes hread
      rcases runBytes_cases hstyle path at_ bytes p with
        ⟨q, hq, hrep, hno⟩ | ⟨q, word, raw, hq, hdec, hesc⟩
      · refine .inl ⟨q, hq, hrep, ?_⟩
        rintro ⟨at', bytes', raw, hplace', hread', hdec, hesc⟩
        obtain rfl : at_ = at' := Whereabouts.place.inj (hplace.symm.trans hplace')
        obtain rfl : bytes = bytes' := Option.some.inj (hread.symm.trans hread')
        exact hno raw hdec hesc
      · exact .inr ⟨q, word, hq, at_, bytes, raw, hplace, hread, hdec, hesc⟩
    · rename_i hread
      refine .inl ⟨_, rfl, ⟨_, rfl⟩, ?_⟩
      rintro ⟨at', bytes', raw, hplace', hread', _⟩
      obtain rfl : at_ = at' := Whereabouts.place.inj (hplace.symm.trans hplace')
      rw [hread] at hread'
      cases hread'
  · rename_i hplace
    refine .inl ⟨_, rfl, ⟨_, rfl⟩, ?_⟩
    rintro ⟨at', _, _, hplace', _⟩
    exact hplace at' hplace'

/-! ## Many files -/

/-- A run that does not stop at failures reports on each file in order, or is cut short by one that
holds a strange word when its turn comes. -/
theorem runFiles_cases (hfast : r.failFast = false) (paths : List Path) (p : Progress) :
    (∃ q, runFiles w r paths p = (q, none) ∧
      q.reports.map FileReport.path = p.reports.map FileReport.path ++ paths) ∨
    ∃ pre path post mid q word, paths = pre ++ path :: post ∧ runFiles w r pre p = (mid, none) ∧
      FileEscapes w encoding style mid path ∧
      runFiles w r paths p = (q, some (.fault (.strangeKeyword word))) := by
  induction paths generalizing p with
  | nil => exact .inl ⟨p, rfl, by simp⟩
  | cons path paths ih =>
    have hstill : ¬ (p.anyFailed && r.failFast) = true := by
      rw [hfast, Bool.and_false]
      exact Bool.false_ne_true
    have hgo : ∀ {q}, runFile w r path p = (q, none) → ∀ more,
        runFiles w r (path :: more) p = runFiles w r more q := by
      intro q hq more
      rw [runFiles, if_neg hstill, hq]
    rcases runFile_cases hcodec hstyle path p with ⟨q, hq, ⟨status, hrep⟩, _⟩ | ⟨q, word, hq, hesc⟩
    · rw [hgo hq]
      rcases ih q with ⟨q', hq', hreps⟩ | ⟨pre, path', post, mid, q', word, rfl, hmid, hesc, hq'⟩
      · refine .inl ⟨q', hq', ?_⟩
        rw [hreps, hrep]
        simp
      · refine .inr ⟨path :: pre, path', post, mid, q', word, rfl, ?_, hesc, hq'⟩
        rw [hgo hq]
        exact hmid
    · refine .inr ⟨[], path, paths, p, q, word, rfl, rfl, hesc, ?_⟩
      rw [runFiles, if_neg hstill, hq]

end

/-- What a file holds can end a run in one way only. A document comes out, or it fails by a fault of
its own, or a word of its code is a keyword by an unusual letter only, and then it does fail by that.
A run over files that is not told to stop at a failure reports on each file that was found, once and
in order, and ends with an exit code, unless a file holds such a word when its turn comes. -/
theorem batch_ends_only_by_strange_word {settings : Settings} {style : Style}
    (hstyle : settings.style = .ok style) :
    (∀ raw, (∃ f, format settings raw = .ok f) ∨
      (∃ e, format settings raw = .error e ∧ e.isDocumentFault = true) ∨
      Escapes style raw) ∧
    (∀ raw, Escapes style raw → ∃ word, format settings raw = .error (.strangeKeyword word)) ∧
    ∀ (w : World) (r : Request) (encoding : Encoding) (found : Targets), r.settings = settings →
      r.noIndentSize = false → r.filter = false → r.failFast = false →
      r.codec = .ok encoding → r.targets w = .ok found →
      ((∃ note reports, reports.map FileReport.path = found.missing ++ found.files ∧
          (runFormat w r).output = note ++ reportLines r.quiet reports ++ summaryLine reports ∧
          (runFormat w r).ending = .exit (exitCode r reports)) ∨
        ∃ pre path post start mid, found.files = pre ++ path :: post ∧
          start.tree = w.tree ∧ runFiles w r pre start = (mid, none) ∧
          FileEscapes w encoding style mid path ∧
          ∃ word, (runFormat w r).ending = .crash (.fault (.strangeKeyword word))) := by
  refine ⟨fun raw => ?_, fun raw hesc => format_strange hstyle hesc.1 hesc.2, ?_⟩
  · cases hf : format settings raw with
    | ok f => exact .inl ⟨f, rfl⟩
    | error e =>
      rcases format_error_cases hstyle hf with hdoc | ⟨heven, hstrange, _⟩
      · exact .inr (.inl ⟨e, rfl, hdoc⟩)
      · exact .inr (.inr ⟨heven, hstrange⟩)
  · rintro w r encoding found rfl hsize hfilter hfast hcodec htargets
    have hunit : ∃ unit, r.settings.indentUnit = .ok unit := by
      cases hu : r.settings.indentUnit with
      | ok unit => exact ⟨unit, rfl⟩
      | error e =>
        rw [Settings.style, hu] at hstyle
        cases hstyle
    obtain ⟨unit, hunit⟩ := hunit
    have hrun : runFormat w r = runRequest w r := by
      rw [runFormat, hsize, hunit, hfilter]
      rfl
    rw [hrun, runRequest, htargets]
    dsimp only
    rcases runFiles_cases (w := w) hcodec hstyle hfast found.files
        ⟨w.tree, if r.verbose = true then r.note found.files.length else [], [],
          found.missing.map fun m => ⟨m, .failed "不存在".toList⟩⟩ with
      ⟨q, hq, hreps⟩ | ⟨pre, path, post, mid, q, word, hfiles, hmid, hesc, hq⟩
    · refine .inl ⟨q.output, q.reports, ?_, ?_, ?_⟩
      · rw [hreps, List.map_map]
        exact congrArg (· ++ found.files) (List.map_id found.missing)
      · rw [hq]
      · rw [hq]
    · refine .inr ⟨pre, path, post, _, mid, hfiles, rfl, hmid, hesc, word, ?_⟩
      rw [hq]

/-- The letter after which this word is a keyword is the long one. -/
def longSub : Text :=
  "ſub".toList

theorem format_longSub_fails : format {} longSub = .error (.strangeKeyword longSub) := by
  decide +kernel

/-- A text whose only word is a keyword by an unusual letter fails by no fault of a document. -/
theorem format_longSub :
    (Settings.style {}).isOk = true ∧ ∃ e, format {} longSub = .error e ∧
      e.isDocumentFault = false :=
  ⟨by decide, _, format_longSub_fails, rfl⟩

theorem longSub_escapes : ∃ style, Settings.style {} = .ok style ∧ Escapes style longSub := by
  obtain ⟨style, hstyle⟩ : ∃ style, Settings.style {} = .ok style := ⟨_, rfl⟩
  refine ⟨style, hstyle, ?_⟩
  rcases (batch_ends_only_by_strange_word hstyle).1 longSub with
    ⟨f, hf⟩ | ⟨e, he, hdoc⟩ | hesc
  · rw [format_longSub_fails] at hf
    cases hf
  · rw [format_longSub_fails] at he
    obtain rfl := Except.error.inj he
    cases hdoc
  · exact hesc

end VbTidy
