import VbTidy.Proofs.Printed
import VbTidy.Proofs.Runs
import VbTidy.Proofs.Told

/-
Protected text and layout. A script is a skeleton with slots for strings and comments, and the slots
are filled in two ways. What is laid out is the same in both: the lines are masked to the same lines
before the first pass over them, so that block structure, splitting and the runs that are aligned do
not depend on what stands in a string or a comment (`layout_independent_of_slots`).
-/
namespace VbTidy

/-! ## Skeletons -/

/-- A part of a skeleton: a character of its own or a slot. -/
inductive Part where
  | char (c : Char)
  /-- A slot for a string in double quotes. -/
  | string
  /-- A slot for a comment behind an apostrophe. -/
  | remark
deriving Repr, DecidableEq

/-- Whether a part ends a line. -/
def Part.endsLine : Part → Bool
  | char c => isLineEnd c
  | _ => false

/-- A skeleton is a list of parts. -/
abbrev Skeleton := List Part

namespace Skeleton

/-- The text of a skeleton with its slots filled one after the other. -/
def fill : Skeleton → List Text → Text
  | [], _ => []
  | .char c :: ps, bs => c :: fill ps bs
  | .string :: ps, bs => '"' :: (bs.headD [] ++ '"' :: fill ps bs.tail)
  | .remark :: ps, bs => '\'' :: (bs.headD [] ++ fill ps bs.tail)

/-- What the slots may be filled with: text without a line end, and in strings without a double
quote. -/
def Accepts : Skeleton → List Text → Prop
  | [], _ => True
  | .char _ :: ps, bs => Accepts ps bs
  | .string :: ps, bs => Quotable (bs.headD []) ∧ Accepts ps bs.tail
  | .remark :: ps, bs => Unbroken (bs.headD []) ∧ Accepts ps bs.tail

/-- The number of double quotes since the last line end of a skeleton; those of slots come in
pairs. -/
def quotesOnLine (ps : Skeleton) : Nat :=
  (ps.reverse.takeWhile (!·.endsLine)).count (.char '"')

/-- The slots stand outside the strings of the skeleton: there is an even number of double quotes
before each on its line. A slot may even stand in a comment. -/
def Placed (ps : Skeleton) : Prop :=
  ∀ n < ps.length, ps[n]? = some .string ∨ ps[n]? = some .remark →
    quotesOnLine (ps.take n) % 2 = 0

/-- Slots are placed from a place on where a double quote is open or not. -/
def PlacedFrom : Bool → Skeleton → Prop
  | _, [] => True
  | q, .char c :: ps =>
    PlacedFrom (if isLineEnd c then false else if c = '"' then !q else q) ps
  | q, .string :: ps => q = false ∧ PlacedFrom q ps
  | q, .remark :: ps => q = false ∧ PlacedFrom q ps

theorem quotesOnLine_concat (ps : Skeleton) (p : Part) :
    quotesOnLine (ps ++ [p]) =
      if p.endsLine then 0 else (if p = .char '"' then 1 else 0) + quotesOnLine ps := by
  rw [quotesOnLine, List.reverse_append, List.reverse_singleton, List.singleton_append,
    List.takeWhile_cons]
  cases hp : p.endsLine with
  | true => simp
  | false =>
    by_cases hq : p = .char '"'
    · simp [hq, quotesOnLine, Nat.add_comm]
    · simp [hq, quotesOnLine]

theorem placedFrom_of_placed {ps : Skeleton} (h : Placed ps) : PlacedFrom false ps := by
  have key : ∀ before rest : Skeleton, ps = before ++ rest →
      PlacedFrom (decide (quotesOnLine before % 2 = 1)) rest := by
    intro before rest
    induction rest generalizing before with
    | nil => exact fun _ => trivial
    | cons p rest ih =>
      intro hps
      have hrest := ih (before ++ [p]) (by simp [hps])
      rw [quotesOnLine_concat] at hrest
      have heven : p = .string ∨ p = .remark → decide (quotesOnLine before % 2 = 1) = false := by
        intro hp
        have hslot : quotesOnLine (ps.take before.length) % 2 = 0 := by
          refine h before.length (by simp [hps]) ?_
          rcases hp with rfl | rfl
          · exact .inl (by simp [hps])
          · exact .inr (by simp [hps])
        rw [hps, List.take_left] at hslot
        simp [hslot]
      cases p with
      | string =>
        refine ⟨heven (.inl rfl), ?_⟩
        simpa [Part.endsLine] using hrest
      | remark =>
        refine ⟨heven (.inr rfl), ?_⟩
        simpa [Part.endsLine] using hrest
      | char c =>
        rw [PlacedFrom]
        convert hrest using 1
        by_cases hc : isLineEnd c = true
        · simp [Part.endsLine, hc]
        · by_cases hq : c = '"'
          · subst hq
            simp only [Part.endsLine]
            rw [if_neg hc, if_neg hc, if_pos trivial, if_pos trivial, ← decide_not, decide_eq_decide]
            omega
          · simp [Part.endsLine, hc, hq]
  exact key [] ps rfl

/-- Two ends of lines behind an open double quote: the same text, or the same text up to the quote
that closes and the same code behind it. -/
def Inside (l l' : Text) : Prop :=
  l = l' ∨ ∃ b u u', '"' ∉ b ∧ l = b ++ '"' :: u ∧ l' = b ++ '"' :: u' ∧ SameCode u u'

/-- The lines of two fillings, where a double quote is open in front of the first or not. -/
structure SameLines (q : Bool) (ls ls' : List Text) : Prop where
  first : if q then Inside (ls.headD []) (ls'.headD []) else SameCode (ls.headD []) (ls'.headD [])
  more : List.Forall₂ SameCode ls.tail ls'.tail
  nil : ls = [] ↔ ls' = []

theorem SameLines.forall₂ {ls ls' : List Text} (h : SameLines false ls ls') :
    List.Forall₂ SameCode ls ls' := by
  obtain ⟨hfirst, hmore, hnil⟩ := h
  cases ls with
  | nil =>
    rw [hnil.mp rfl]
    exact .nil
  | cons l ls =>
    cases ls' with
    | nil => cases hnil.mpr rfl
    | cons l' ls' => exact .cons hfirst hmore

theorem SameLines.lineEnd (q : Bool) {ls ls' : List Text} (h : List.Forall₂ SameCode ls ls') :
    SameLines q ([] :: ls) ([] :: ls') where
  first := by
    cases q with
    | false => exact .same []
    | true => exact .inl rfl
  more := h
  nil := by simp

theorem Inside.cons {c : Char} (hc : c ≠ '"') {l l' : Text} (h : Inside l l') :
    Inside (c :: l) (c :: l') := by
  rcases h with rfl | ⟨b, u, u', hb, rfl, rfl, hu⟩
  · exact .inl rfl
  · refine .inr ⟨c :: b, u, u', ?_, rfl, rfl, hu⟩
    intro hmem
    rcases List.mem_cons.mp hmem with e | hmem
    · exact hc e.symm
    · exact hb hmem

theorem Inside.quote {l l' : Text} (h : Inside l l') (hl : Unbroken l) :
    SameCode ('"' :: l) ('"' :: l') := by
  rcases h with rfl | ⟨b, u, u', hb, rfl, rfl, hu⟩
  · exact .same _
  · have hq : Quotable b := fun c hc => ⟨fun e => hb (e ▸ hc), hl.left c hc⟩
    exact .string hq hq hu

theorem SameLines.char {q : Bool} {c : Char} (hc : isLineEnd c = false) {t t' : Text}
    (h : SameLines (if c = '"' then !q else q) (splitLines t) (splitLines t')) :
    SameLines q (splitLines (c :: t)) (splitLines (c :: t')) := by
  obtain ⟨hfirst, hmore, _⟩ := h
  rw [splitLines_char hc, splitLines_char hc]
  refine ⟨?_, hmore, by simp⟩
  have hline : Unbroken ((splitLines t).headD []) := by
    cases ht : splitLines t with
    | nil => exact .nil
    | cons l ls => exact unbroken_splitLines t l (by simp [ht])
  simp only [List.headD_cons]
  by_cases hq : c = '"'
  · subst hq
    cases q with
    | false => exact Inside.quote hfirst hline
    | true => exact .inr ⟨[], _, _, by simp, rfl, rfl, hfirst⟩
  · rw [if_neg hq] at hfirst
    cases q with
    | false => exact .char hq hfirst
    | true => exact Inside.cons hq hfirst

/-- The lines of two fillings of a skeleton have the same code. -/
theorem sameLines {q : Bool} {ps : Skeleton} {bs bs' : List Text} (hp : PlacedFrom q ps)
    (h : Accepts ps bs) (h' : Accepts ps bs') :
    SameLines q (splitLines (fill ps bs)) (splitLines (fill ps bs')) := by
  -- By length, since a carriage return with a line feed is one line end.
  induction hn : ps.length using Nat.strongRecOn generalizing q ps bs bs' with
  | ind n ih =>
    subst hn
    cases ps with
    | nil =>
      refine ⟨?_, .nil, Iff.rfl⟩
      cases q with
      | false => exact .same []
      | true => exact .inl rfl
    | cons p ps =>
      have hrest : ∀ {q : Bool} {bs bs' : List Text}, PlacedFrom q ps → Accepts ps bs →
          Accepts ps bs' → SameLines q (splitLines (fill ps bs)) (splitLines (fill ps bs')) :=
        fun hp h h' => ih ps.length (by simp) hp h h' rfl
      cases p with
      | char c =>
        rw [PlacedFrom] at hp
        rw [fill, fill]
        cases hc : isLineEnd c with
        | false =>
          rw [hc, if_neg (by simp)] at hp
          exact .char hc (hrest hp h h')
        | true =>
          rw [hc, if_pos rfl] at hp
          by_cases hpair : c = '\r' ∧ ∃ more, ps = .char '\n' :: more
          · obtain ⟨rfl, more, rfl⟩ := hpair
            have hmore : PlacedFrom false more := by
              rw [PlacedFrom, if_pos (by decide)] at hp
              exact hp
            have hafter : SameLines false (splitLines (fill more bs)) (splitLines (fill more bs')) :=
              ih more.length (by rw [List.length_cons, List.length_cons]; omega) hmore h h' rfl
            rw [fill, fill, splitLines, splitLines]
            exact .lineEnd q hafter.forall₂
          · have hnot : ∀ bs u, c = '\r' → fill ps bs = '\n' :: u → False := by
              intro bs u hr hu
              apply hpair
              refine ⟨hr, ?_⟩
              cases ps with
              | nil => cases hu
              | cons p ps =>
                cases p with
                | char d =>
                  obtain ⟨rfl, _⟩ := List.cons.inj hu
                  exact ⟨ps, rfl⟩
                | string => cases (List.cons.inj hu).1
                | remark => cases (List.cons.inj hu).1
            rw [splitLines, splitLines, if_pos hc, if_pos hc]
            · exact .lineEnd q (hrest hp h h').forall₂
            · exact fun u hr hu => hnot bs' u hr hu
            · exact fun u hr hu => hnot bs u hr hu
      | string =>
        obtain ⟨rfl, hp⟩ := hp
        obtain ⟨hfirst, hmore, _⟩ := hrest hp h.2 h'.2
        have hline : ∀ {b : Text}, Quotable b → ∀ t,
            splitLines ('"' :: (b ++ '"' :: t)) =
              ('"' :: (b ++ '"' :: (splitLines t).headD [])) :: (splitLines t).tail := by
          intro b hb t
          have hs : ∀ c ∈ '"' :: (b ++ ['"']), isLineEnd c = false := by
            intro c hc
            simp only [List.mem_cons, List.mem_append, List.not_mem_nil, or_false] at hc
            rcases hc with rfl | hc | rfl
            · rfl
            · exact (hb c hc).2
            · rfl
          simpa using splitLines_append hs (by simp) t
        rw [fill, fill, hline h.1, hline h'.1]
        exact ⟨.string h.1 h'.1 hfirst, hmore, by simp⟩
      | remark =>
        obtain ⟨rfl, hp⟩ := hp
        obtain ⟨_, hmore, _⟩ := hrest hp h.2 h'.2
        have hline : ∀ {b : Text}, Unbroken b → ∀ t,
            splitLines ('\'' :: (b ++ t)) =
              ('\'' :: (b ++ (splitLines t).headD [])) :: (splitLines t).tail := by
          intro b hb t
          have hs : ∀ c ∈ '\'' :: b, isLineEnd c = false := by
            intro c hc
            rcases List.mem_cons.mp hc with rfl | hc
            · rfl
            · exact hb c hc
          simpa using splitLines_append hs (by simp) t
        rw [fill, fill, hline h.1, hline h'.1]
        exact ⟨.remark _ _, hmore, by simp⟩

end Skeleton

/-! ## Scripts without tags -/

/-- Whether a word stands in a text in any letter case, with no word character next to it. -/
def hasWholeWord (word : Text) : Option Char → Text → Bool
  | _, [] => word.isEmpty
  | before, c :: t =>
    (!wordAt before && (dropWord? word (c :: t)).any fun rest => !wordAt rest.head?) ||
      hasWholeWord word (some c) t

theorem wordAt_of_hasWholeWord {word t rest : Text} {before : Option Char} (hne : word ≠ [])
    (hb : wordAt before = false) (h : hasWholeWord word before t = false)
    (hrest : dropWord? word (t.dropWhile isSpace) = some rest) : wordAt rest.head? = true := by
  induction t generalizing before with
  | nil =>
    obtain ⟨c, w, rfl⟩ := List.exists_cons_of_ne_nil hne
    cases hrest
  | cons c t ih =>
    rw [hasWholeWord, Bool.or_eq_false_iff] at h
    by_cases hc : isSpace c = true
    · rw [List.dropWhile_cons_of_pos hc] at hrest
      have hword : wordAt (some c) = false := isWord_of_isBreak (isBreak_of_isSpace hc)
      exact ih hword h.2 hrest
    · rw [List.dropWhile_cons_of_neg hc] at hrest
      have hhere := h.1
      rw [hrest, hb] at hhere
      simpa using hhere

/-- A text in which no script tag opens has no fences. -/
theorem fenceScripts_of_no_tag {t : Text} (h : ∀ u, u <:+ t → dropOpenTag? u = none) :
    fenceScripts t = t := by
  have key : ∀ (u : Text) (quoted : Bool), u <:+ t →
      (fenceFrom false quoted false 0 u).flatMap Fenced.written = u := by
    intro u
    induction u with
    | nil => exact fun _ _ => rfl
    | cons c u ih =>
      intro quoted hu
      rw [fenceFrom, if_neg (by simp), h _ hu]
      show [c] ++ (fenceFrom false (quoteAfter quoted c) false 0 u).flatMap Fenced.written = c :: u
      rw [ih _ ((List.suffix_cons c u).trans hu)]
      rfl
  exact key t false (List.suffix_refl t)

theorem hasWholeWord_suffix {word t u : Text} {before : Option Char} (hu : u <:+ t)
    (h : hasWholeWord word before t = false) :
    ∃ before', hasWholeWord word before' u = false := by
  induction t generalizing before with
  | nil =>
    obtain rfl := List.suffix_nil.mp hu
    exact ⟨before, h⟩
  | cons c t ih =>
    rcases List.suffix_cons_iff.mp hu with rfl | hu
    · exact ⟨before, h⟩
    · rw [hasWholeWord, Bool.or_eq_false_iff] at h
      exact ih hu h.2

/-- A text in which the word script does not stand has no fences. -/
theorem fenceScripts_of_no_script {t : Text}
    (h : hasWholeWord "script".toList none t = false) : fenceScripts t = t := by
  apply fenceScripts_of_no_tag
  intro u hu
  unfold dropOpenTag?
  split
  · next v =>
    obtain ⟨before, hword⟩ := hasWholeWord_suffix hu h
    rw [hasWholeWord, Bool.or_eq_false_iff] at hword
    split
    · rfl
    · next rest hrest =>
      rw [if_pos (wordAt_of_hasWholeWord (by decide) (by decide) hword.2 hrest)]
  · rfl

/-! ## Two runs -/

/-- Whether a plain script can be formatted is settled by its masked lines. -/
theorem PlainScript.ok_iff {settings : Settings} {style : Style} {raw : Text} (h : PlainScript raw)
    (hfence : fenceScripts raw = raw) (hstyle : settings.style = .ok style) :
    (∃ f, format settings raw = .ok f) ↔
      (∃ recased, recase style.letterCase (spacedLines style raw) = .ok recased) ∧
        ∀ k, ∀ l ∈ spacedLines style raw, ¬ Stray k l := by
  have heven : (Lifting.delimiter raw).rest.length % 2 = 0 := by rw [h.delimiter_eq hfence]; rfl
  constructor
  · rintro ⟨f, hok⟩
    constructor
    · obtain ⟨style', worked, hstyle', _, hwork, _⟩ := format_ok hok
      obtain rfl : style' = style := Except.ok.inj (hstyle'.symm.trans hstyle)
      obtain ⟨recased, _, hrecase, _, _⟩ := workLines_ok hwork
      exact ⟨recased, hrecase⟩
    · intro k l hl hs
      exact not_ok_of_astray h.nul hstyle hfence (.inl ⟨k, l, hl, hs⟩) f hok
  · rintro ⟨hrecase, hclear⟩
    have hastray : ¬ Astray style raw := by
      rintro (⟨k, l, hl, hs⟩ | ⟨j, k, _, l, hl, hs⟩)
      · exact hclear k l hl hs
      · exact not_stray_nul_free (fun hmem => ((h.literal hfence hl).2 _ hmem).1 rfl) hs
    obtain ⟨_, f, _, _, hok⟩ := matched_of_clear h.nul hstyle hastray ⟨heven, hrecase⟩
    exact ⟨f, hok⟩

theorem format_stats {settings : Settings} {style : Style} {raw : Text} {f : Formatted}
    {worked : Worked} (hstyle : settings.style = .ok style)
    (hwork : (workLines style (Lifting.result raw).shelves (Lifting.result raw).lines).outcome =
      .ok worked) (hok : format settings raw = .ok f) :
    f.stats = {
      totalLines := (splitLines raw).length
      declarationsSplit := worked.declarationsSplit
      maxDepth := worked.maxDepth
      assignmentBlocks := worked.assignmentBlocks
      remarkBlocks := worked.remarkBlocks
      literals := (Lifting.result raw).shelves.map List.length } := by
  rw [format_outcome hstyle] at hok
  split at hok
  · rw [hwork, ok_bind] at hok
    cases hback : (putBackLiterals (Lifting.result raw).shelves (newlineOf raw)
        (workedText raw worked)).outcome with
    | error e =>
      rw [hback] at hok
      cases hok
    | ok text =>
      rw [hback] at hok
      obtain rfl := Except.ok.inj hok
      rfl
  · cases hok

/-- The working of lines in terms of the lines that indentation leaves. -/
theorem worked_of_indented {style : Style} {shelves : Shelves} {lines recased : List Text}
    {worked : Worked} (hwork : (workLines style shelves lines).outcome = .ok worked)
    (hrecase : recase style.letterCase ((statements style lines).map spaceLine) = .ok recased) :
    worked.declarationsSplit = (if style.splitDeclarations then countSplit lines else 0) ∧
      worked.maxDepth = maxDepth (nest recased) ∧
      worked.assignmentBlocks = (assignmentMarker.runs (layOut style.unit (nest recased))).length ∧
      worked.remarkBlocks = (remarkMarker.runs (layOut style.unit (nest recased))).length ∧
      worked.lines.length = (layOut style.unit (nest recased)).length := by
  rw [workLines_outcome, hrecase, ok_bind] at hwork
  cases hassign : assignmentMarker.align shelves (layOut style.unit (nest recased)) with
  | error e => simp [hassign, error_bind] at hwork
  | ok assigned =>
    simp only [hassign, ok_bind] at hwork
    cases hremark : remarkMarker.align shelves assigned with
    | error e => simp [hremark] at hwork
    | ok aligned =>
      simp only [hremark, ok_bind] at hwork
      obtain rfl := Except.ok.inj hwork
      refine ⟨rfl, rfl, rfl, ?_, ?_⟩
      · show (remarkMarker.runs assigned).length = _
        rw [runs_align_assignment hassign]
      · show aligned.length = _
        rw [← (align_moves hremark).length_eq, ← (align_moves hassign).length_eq]

theorem map_masked_eq {ls ls' : List Text} (h : List.Forall₂ SameCode ls ls')
    (hl : ∀ l ∈ ls, OnLine l) (hl' : ∀ l ∈ ls', OnLine l) : ls.map masked = ls'.map masked := by
  induction h with
  | nil => rfl
  | cons hline _ ih =>
    rw [List.map_cons, List.map_cons,
      hline.masked_eq (hl _ List.mem_cons_self) (hl' _ List.mem_cons_self),
      ih (fun l hm => hl l (List.mem_cons_of_mem _ hm))
        (fun l hm => hl' l (List.mem_cons_of_mem _ hm))]

/-- The lines that are worked on do not depend on what the slots are filled with. -/
theorem lines_of_slots {ps : Skeleton} {bs bs' : List Text} (hp : ps.Placed)
    (hbs : ps.Accepts bs) (hbs' : ps.Accepts bs') (h : PlainScript (ps.fill bs))
    (h' : PlainScript (ps.fill bs')) (hfence : fenceScripts (ps.fill bs) = ps.fill bs)
    (hfence' : fenceScripts (ps.fill bs') = ps.fill bs') :
    (Lifting.result (ps.fill bs)).lines = (Lifting.result (ps.fill bs')).lines := by
  have hsame := (Skeleton.sameLines (Skeleton.placedFrom_of_placed hp) hbs hbs').forall₂
  have hmasked := map_masked_eq hsame (fun _ hl => h.onLine hl) (fun _ hl => h'.onLine hl)
  have hresume := congrArg (List.map fun l => Lifting.mask .resume (cutResume l)) hmasked
  rw [h.lines_eq hfence, h'.lines_eq hfence']
  simpa [Function.comp_def] using hresume

/-- Protected text cannot influence layout. Let the slots of a skeleton be filled in two ways, such
that neither script has a delimiter or the word script in it. In both runs the lines after
indentation are the same, either both runs fail or none does, and the counts of split declarations,
depth and runs and the number of lines are the same. -/
theorem layout_independent_of_slots {settings : Settings} {style : Style} {ps : Skeleton}
    {bs bs' : List Text} (hstyle : settings.style = .ok style) (hp : ps.Placed)
    (hbs : ps.Accepts bs) (hbs' : ps.Accepts bs') (h : PlainScript (ps.fill bs))
    (h' : PlainScript (ps.fill bs'))
    (hword : hasWholeWord "script".toList none (ps.fill bs) = false)
    (hword' : hasWholeWord "script".toList none (ps.fill bs') = false) :
    (∀ ls, .finished .indent (.lines ls) ∈ (formatTraced settings (ps.fill bs)).events ↔
      .finished .indent (.lines ls) ∈ (formatTraced settings (ps.fill bs')).events) ∧
    ((∃ f, format settings (ps.fill bs) = .ok f) ↔
      ∃ f', format settings (ps.fill bs') = .ok f') ∧
    ∀ f f', format settings (ps.fill bs) = .ok f → format settings (ps.fill bs') = .ok f' →
      f.stats.declarationsSplit = f'.stats.declarationsSplit ∧
      f.stats.maxDepth = f'.stats.maxDepth ∧
      f.stats.assignmentBlocks = f'.stats.assignmentBlocks ∧
      f.stats.remarkBlocks = f'.stats.remarkBlocks ∧
      (splitLines f.text).length = (splitLines f'.text).length := by
  have hfence := fenceScripts_of_no_script hword
  have hfence' := fenceScripts_of_no_script hword'
  have hlines := lines_of_slots hp hbs hbs' h h' hfence hfence'
  have hspaced : spacedLines style (ps.fill bs) = spacedLines style (ps.fill bs') := by
    rw [spacedLines, spacedLines, hlines]
  refine ⟨fun ls => ?_, ?_, fun f f' hok hok' => ?_⟩
  · rw [told_indented hstyle, told_indented hstyle, h.delimiter_eq hfence,
      h'.delimiter_eq hfence', hspaced]
  · rw [h.ok_iff hfence hstyle, h'.ok_iff hfence' hstyle, hspaced]
  · obtain ⟨worked, hwork, htext, _⟩ := h.splitLines_text hfence hstyle hok
    obtain ⟨worked', hwork', htext', _⟩ := h'.splitLines_text hfence' hstyle hok'
    obtain ⟨recased, _, hrecase, _, _⟩ := workLines_ok hwork
    have hrecase' := hrecase
    rw [hlines] at hrecase'
    obtain ⟨hsplit, hdepth, hassign, hremark, hlength⟩ := worked_of_indented hwork hrecase
    obtain ⟨hsplit', hdepth', hassign', hremark', hlength'⟩ := worked_of_indented hwork' hrecase'
    rw [format_stats hstyle hwork hok, format_stats hstyle hwork' hok', htext, htext',
      length_printed, length_printed]
    refine ⟨?_, hdepth.trans hdepth'.symm, hassign.trans hassign'.symm,
      hremark.trans hremark'.symm, hlength.trans hlength'.symm⟩
    rw [hlines] at hsplit
    exact hsplit.trans hsplit'.symm

/-- An assignment of a string, and a comment on the next line. -/
def stringThenRemark : Skeleton :=
  [.char 'x', .char '=', .string, .char '\n', .remark]

/-- Block keywords in the string and in the comment open no block. -/
theorem layout_of_stringThenRemark :
    ∃ style, Settings.style {} = .ok style ∧
      ∀ ls, .finished .indent (.lines ls) ∈ (formatTraced {} "x=\"If a Then\"\n'End If".toList).events ↔
        .finished .indent (.lines ls) ∈ (formatTraced {} "x=\"\"\n'".toList).events := by
  have hplaced : stringThenRemark.Placed := by
    unfold Skeleton.Placed
    decide
  have haccepts : stringThenRemark.Accepts ["If a Then".toList, "End If".toList] := by
    refine ⟨?_, ?_, trivial⟩
    · show ∀ c ∈ "If a Then".toList, c ≠ '"' ∧ isLineEnd c = false
      decide
    · show ∀ c ∈ "End If".toList, isLineEnd c = false
      decide
  have haccepts' : stringThenRemark.Accepts [] := by
    refine ⟨?_, ?_, trivial⟩
    · intro c hc
      cases hc
    · intro c hc
      cases hc
  refine ⟨_, rfl, (layout_independent_of_slots rfl hplaced haccepts haccepts' ?_ ?_ ?_ ?_).1⟩
  · exact ⟨by decide, by decide, by decide, by decide, by decide⟩
  · exact ⟨by decide, by decide, by decide, by decide, by decide⟩
  · decide
  · decide

end VbTidy
