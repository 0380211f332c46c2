import VbTidy.Proofs.Columns
import VbTidy.Proofs.Front
import VbTidy.Proofs.Again

/-
Aligned signs in the finished document. The columns that aligning brings about are those of the
document with all its literals back and nothing padded. In the finished document a sign stands at
its column if no markup stands before it on its line (`aligned_in_one_column`). Where markup does,
the code next to it is padded after the columns have been measured, and the signs of a run come
apart (`apart_delimitedThenPlain`).
-/
namespace VbTidy

/-! ## Widths of last lines -/

theorem width_spaces (u : Text) (n : Nat) :
    width (lastLine (u ++ List.replicate n ' ')) = width (lastLine u) + n := by
  have hfree : '\n' ∉ List.replicate n ' ' := by
    intro h
    exact absurd (List.eq_of_mem_replicate h) (by decide)
  rw [lastLine_append u hfree, width_append, width_blanks]

theorem joinLines_concat (newline : Text) {us : List Text} (hne : us ≠ []) (u : Text) :
    joinLines newline (us ++ [u]) = joinLines newline us ++ (newline ++ u) := by
  induction us with
  | nil => exact absurd rfl hne
  | cons v us ih =>
    cases us with
    | nil => simp [joinLines_cons_cons]
    | cons w us =>
      have hmore := ih (List.cons_ne_nil w us)
      calc joinLines newline ((v :: w :: us) ++ [u])
          = v ++ (newline ++ joinLines newline ((w :: us) ++ [u])) :=
            joinLines_cons_cons newline v w (us ++ [u])
        _ = joinLines newline (v :: w :: us) ++ (newline ++ u) := by
            rw [hmore, joinLines_cons_cons]
            simp

/-- The last of joined lines is the last line. -/
theorem lastLine_joinLines {newline : Text} (hn : ∃ n, newline = n ++ ['\n']) (us : List Text)
    (u : Text) : lastLine (joinLines newline (us ++ [u])) = lastLine u := by
  obtain ⟨n, rfl⟩ := hn
  by_cases hne : us = []
  · subst hne
    simp [joinLines]
  · rw [joinLines_concat _ hne]
    have hwhole : joinLines (n ++ ['\n']) us ++ (n ++ ['\n'] ++ u) =
        (joinLines (n ++ ['\n']) us ++ n) ++ '\n' :: u := by simp
    rw [hwhole, lastLine_feed_append]

theorem joinLines_append_last (newline : Text) (us : List Text) (u v : Text) :
    joinLines newline (us ++ [u ++ v]) = joinLines newline (us ++ [u]) ++ v := by
  by_cases hne : us = []
  · subst hne
    simp [joinLines]
  · rw [joinLines_concat _ hne, joinLines_concat _ hne]
    simp

/-! ## Lines that are aligned -/

theorem not_mem_of_find? {c : Char} {a b : Text} (h : find? [c] (a ++ c :: b) = some a.length) :
    c ∉ a := by
  intro hc
  obtain ⟨x, y, rfl⟩ := List.append_of_mem hc
  have := (find?_eq_some h).2 x (y ++ c :: b) (by simp)
  simp only [List.length_append, List.length_cons] at this
  omega

/-- On a clear line the comment at its end is found. -/
theorem find?_remark {a : Text} (h : Clear (a ++ Kind.remark.token)) :
    find? Kind.remark.token (a ++ Kind.remark.token) = some a.length := by
  have hin : Kind.remark.token <:+: a ++ Kind.remark.token := (List.suffix_append _ _).isInfix
  obtain ⟨i, hi⟩ := Option.isSome_iff_exists.mp (isSome_find?.mpr hin)
  obtain ⟨⟨x, y, hxy, rfl⟩, hfirst⟩ := find?_eq_some hi
  rw [hi]
  rw [hxy] at h hfirst
  obtain ⟨_, rfl⟩ := comment_of_first h.settled.toOrderly (h.clear .remark) hfirst
  rw [List.append_nil] at hxy
  rw [List.append_cancel_right hxy]

section
variable {s : Shelves} {lines out : List Text} {run : List Nat}

/-- The equals signs of a run of assignments have texts of one width in front of them. -/
theorem align_assignments (hclear : ∀ l ∈ lines, Clear l)
    (h : assignmentMarker.align s lines = .ok out) (hrun : run ∈ assignmentMarker.runs lines) :
    ∃ column, ∀ i ∈ run, ∃ a b u, out[i]? = some (a ++ '=' :: b) ∧ '=' ∉ a ∧
      ReadAt s out i a u ∧ width (lastLine u) = column := by
  have hrespaced := respaced_align (.inl rfl) hclear h
  obtain ⟨column, hcolumn⟩ :=
    align_run (fun l hl n hn => (hclear l hl).loose_cut (.inl rfl) hn) h hrun
  refine ⟨column, fun i hi => ?_⟩
  obtain ⟨line, cut, u, hline, hcut, hread, hle, hout⟩ := hcolumn i hi
  obtain ⟨a, b, rfl, rfl, hshift⟩ := assignment_shift (n := column - width (lastLine u)) hcut
  have hfind : find? ['='] (a ++ '=' :: b) = some a.length := by
    simp only [assignmentMarker] at hcut
    split at hcut
    · exact hcut
    · cases hcut
  rw [List.take_left] at hread
  refine ⟨a ++ List.replicate (column - width (lastLine u)) ' ', b,
    u ++ List.replicate (column - width (lastLine u)) ' ', ?_, ?_,
    (hread.spaces _).respaced hrespaced, ?_⟩
  · rw [hout, hshift, List.append_assoc]
  · rw [List.mem_append, not_or]
    refine ⟨not_mem_of_find? hfind, fun hmem => ?_⟩
    exact absurd (List.eq_of_mem_replicate hmem) (by decide)
  · rw [width_spaces]
    omega

/-- The comments of a run have texts of one width in front of them, which end with a space. -/
theorem align_remarks (hclear : ∀ l ∈ lines, Clear l)
    (h : remarkMarker.align s lines = .ok out) (hrun : run ∈ remarkMarker.runs lines) :
    ∃ column, ∀ i ∈ run, ∃ a u, out[i]? = some (a ++ [' '] ++ Kind.remark.token) ∧
      ReadAt s out i (a ++ [' ']) u ∧ width (lastLine u) = column := by
  have hrespaced := respaced_align (.inr rfl) hclear h
  obtain ⟨column, hcolumn⟩ :=
    align_run (fun l hl n hn => (hclear l hl).loose_cut (.inr rfl) hn) h hrun
  refine ⟨column + 1, fun i hi => ?_⟩
  obtain ⟨line, cut, u, hline, hcut, hread, hle, hout⟩ := hcolumn i hi
  obtain ⟨a, s, rfl, _, _, rfl, hshift⟩ :=
    remark_apart (hclear line (List.mem_of_getElem? hline)) hcut
  rw [List.take_left] at hread
  refine ⟨a ++ List.replicate (column - width (lastLine u)) ' ',
    u ++ List.replicate (column - width (lastLine u) + 1) ' ', ?_, ?_, ?_⟩
  · rw [hout, hshift, List.replicate_succ']
    simp
  · have hspaces := (hread.spaces (column - width (lastLine u) + 1)).respaced hrespaced
    have hlast : List.replicate (column - width (lastLine u) + 1) ' ' =
        List.replicate (column - width (lastLine u)) ' ' ++ [' '] := List.replicate_succ'
    rwa [hlast, ← List.append_assoc, ← hlast] at hspaces
  · rw [width_spaces]
    omega

end

/-- A comment that is moved leaves the text up to the equals sign before it. -/
theorem equals_of_moved {a b l : Text} (h : Clear (a ++ '=' :: b))
    (hl : remarkMarker.Moves (a ++ '=' :: b) l) : ∃ b', l = a ++ '=' :: b' := by
  rcases hl with rfl | ⟨cut, n, hcut, rfl⟩
  · exact ⟨b, rfl⟩
  · obtain ⟨d, s, hline, _, hs, _, hshift⟩ := remark_apart h hcut
    have hfree : '=' ∉ s ++ Kind.remark.token := by
      rw [List.mem_append, not_or]
      refine ⟨fun hmem => ?_, by decide⟩
      exact absurd (hs _ hmem) (by decide)
    rw [hshift]
    rcases List.append_eq_append_iff.mp hline with ⟨w, rfl, hw⟩ | ⟨w, _, hw⟩
    · cases w with
      | nil => exact absurd (hw ▸ List.mem_cons_self) hfree
      | cons c w =>
        obtain ⟨rfl, _⟩ := List.cons.inj hw
        exact ⟨w ++ (List.replicate (n + 1) ' ' ++ Kind.remark.token), by simp⟩
    · rw [hw] at hfree
      exact absurd (by simp) hfree

/-- The lines of a document in which no name is astray are clear before each alignment and after
the last. -/
theorem clear_lines {raw : Text} {style : Style} {recased assigned out : List Text}
    (hnul : '\x00' ∉ raw) (hu : ∀ c ∈ style.unit, isBlank c = true) (hclear : ¬ Astray style raw)
    (hr : recase style.letterCase (spacedLines style raw) = .ok recased)
    (ha : assignmentMarker.align (Lifting.result raw).shelves (layOut style.unit (nest recased)) =
      .ok assigned)
    (hout : remarkMarker.align (Lifting.result raw).shelves assigned = .ok out) :
    (∀ l ∈ layOut style.unit (nest recased), Clear l) ∧ (∀ l ∈ assigned, Clear l) ∧
      ∀ l ∈ out, Clear l := by
  obtain ⟨hsettled, _⟩ := settled_spacedLines hnul style
  have hspaced : ∀ l ∈ spacedLines style raw, Clear l :=
    fun l hl => ⟨hsettled l hl, fun k hs => hclear (.inl ⟨k, l, hl, hs⟩)⟩
  have hrecased : ∀ l ∈ recased, Clear l :=
    forall_of_forall₂ (fun _ _ hl h => Clear.recased hl h)
      (recase_forall₂ (fun l hl => (hspaced l hl).settled.sound) hr) hspaced
  have hlaid := clear_layOut hu hrecased
  have hassigned : ∀ l ∈ assigned, Clear l :=
    forall_of_forall₂ (fun _ _ hl hmove => Clear.moves (.inl rfl) hl hmove) (align_moves ha) hlaid
  exact ⟨hlaid, hassigned,
    forall_of_forall₂ (fun _ _ hl hmove => Clear.moves (.inr rfl) hl hmove) (align_moves hout)
      hassigned⟩

/-! ## Texts put back -/

/-- The kinds that are put back before markup. -/
def codeKinds : List Kind :=
  [.resume, .remark, .string, .delimiter]

section
variable {s : Shelves}

/-- A kind that is read from the start of its shelf. -/
theorem reads_from_start {k : Kind} {ks : List Kind} {at_ at' : PerKind Nat} {t v : Text}
    (hat : at_.get k = 0) : Reads s (k :: ks) at_ t v at' ↔
      (cutTokens k t).rest.length ≤ (s.get k).length ∧
        Reads s ks (at_.set k (cutTokens k t).rest.length) ((cutTokens k t).fillWith (s.get k)) v
          at' := by
  have htokens : (s.shelf k).tokens t = (cutTokens k t).rest.length := rfl
  have hcut : (s.shelf k).cut t = cutTokens k t := rfl
  have hliterals : (s.shelf k).literals = s.get k := rfl
  simp only [reads_cons, hat, Shelf.fill_eq_ok_iff, Shelf.remaining, htokens, hcut, hliterals,
    List.drop_zero, Nat.sub_zero, Nat.zero_add]
  constructor
  · rintro ⟨_, _, ⟨hlen, rfl, rfl⟩, hmore⟩
    exact ⟨hlen, hmore⟩
  · rintro ⟨hlen, hmore⟩
    exact ⟨_, _, ⟨hlen, rfl, rfl⟩, hmore⟩

/-- From the start of the shelves each kind meets the text that the kinds before it have left. -/
theorem reads_codeKinds {t v : Text} {at' : PerKind Nat}
    (h : Reads s codeKinds (PerKind.const 0) t v at') :
    v = (backTexts s t).get .markup ∧ at'.get .markup = 0 := by
  obtain ⟨_, h⟩ := (reads_from_start rfl).mp h
  obtain ⟨_, h⟩ := (reads_from_start rfl).mp h
  obtain ⟨_, h⟩ := (reads_from_start rfl).mp h
  obtain ⟨_, h⟩ := (reads_from_start rfl).mp h
  obtain ⟨rfl, rfl⟩ := reads_nil.mp h
  exact ⟨rfl, rfl⟩

theorem reads_backTexts {t : Text} (hm : Matched s t) :
    ∃ at', Reads s codeKinds (PerKind.const 0) t ((backTexts s t).get .markup) at' :=
  ⟨_, (reads_from_start rfl).mpr ⟨(hm .resume).le, (reads_from_start rfl).mpr ⟨(hm .remark).le,
    (reads_from_start rfl).mpr ⟨(hm .string).le, (reads_from_start rfl).mpr ⟨(hm .delimiter).le,
      reads_nil.mpr ⟨rfl, rfl⟩⟩⟩⟩⟩⟩

/-- All kinds are read from the start of their shelves as they are put back. -/
theorem reads_all {t v : Text} {at' : PerKind Nat}
    (h : Reads s Kind.backOrder (PerKind.const 0) t v at') :
    v = filled s t .markup ∧ (backCut s t .markup).rest.length ≤ (s.get .markup).length ∧
      ∃ middle, Reads s codeKinds (PerKind.const 0) t ((backTexts s t).get .markup) middle := by
  have hkinds : Kind.backOrder = codeKinds ++ [.markup] := rfl
  rw [hkinds] at h
  obtain ⟨u, middle, hu, hv⟩ := reads_kinds.mp h
  obtain ⟨rfl, hmiddle⟩ := reads_codeKinds hu
  obtain ⟨hlen, hv⟩ := (reads_from_start hmiddle).mp hv
  obtain ⟨rfl, _⟩ := reads_nil.mp hv
  exact ⟨rfl, hlen, middle, hu⟩

theorem codeKinds_nodup : codeKinds.Nodup := by decide

/-- Behind an equals sign the text before it is read as if it ended there. -/
theorem backTexts_equals {a b : Text} {at_ : PerKind Nat} {u : Text}
    (ha : Reads s codeKinds (PerKind.const 0) a u at_) (hm : Matched s (a ++ '=' :: b)) :
    ∃ w, (backTexts s (a ++ '=' :: b)).get .markup = u ++ '=' :: w := by
  obtain ⟨at', hall⟩ := reads_backTexts hm
  have hhead : (('=' :: b).head?).all isBreak = true := rfl
  obtain ⟨u', middle, v, hu', hv, heq⟩ := (reads_append codeKinds_nodup hhead).mp hall
  obtain ⟨rfl, _⟩ := hu'.unique ha
  have hfree : '\x00' ∉ ['='] := by decide
  obtain ⟨w, _, rfl⟩ := (reads_nul_free_append (t := b) hfree).mp hv
  exact ⟨w, heq⟩

/-- Whether a comment may start with a character: an apostrophe or the first letter of Rem. -/
def isRemarkHead (c : Char) : Bool :=
  c == '\'' || lowerChar c == 'r'

theorem StartsRemark.remarkHead {t : Text} (h : StartsRemark t) :
    ∃ c u, t = c :: u ∧ isRemarkHead c = true := by
  rcases h with h | h
  · cases t with
    | nil => cases h
    | cons c t =>
      obtain rfl : c = '\'' := by simpa using h
      exact ⟨_, t, rfl, rfl⟩
  · match t, h with
    | r :: e :: m :: t, h =>
      simp only [isRem, Bool.and_eq_true, beq_iff_eq] at h
      exact ⟨r, _, rfl, by simp [isRemarkHead, h.1.1.1]⟩

theorem isSign_of_isRemarkHead {c : Char} (h : isRemarkHead c = true) : isSign c = true := by
  rw [isRemarkHead, Bool.or_eq_true, beq_iff_eq, beq_iff_eq] at h
  rcases h with rfl | h
  · decide
  · have hother : ∀ d ∈ [' ', '\t', '\r', '\n', '%', '>', '\x00'], c ≠ d := by
      rintro d hd rfl
      have hlower : ∀ d ∈ [' ', '\t', '\r', '\n', '%', '>', '\x00'], lowerChar d ≠ 'r' := by decide
      exact hlower c hd h
    simp only [List.mem_cons, forall_eq_or_imp, List.not_mem_nil, false_imp_iff, implies_true,
      and_true] at hother
    obtain ⟨hspace, htab, hrest⟩ := hother
    exact isSign_iff.mpr ⟨by simp [isBlank, hspace, htab], hrest⟩

/-- The token of a comment is read as a text that starts like a comment. -/
theorem reads_remark {at_ at' : PerKind Nat} {v : Text}
    (hs : ∀ l ∈ s.get .remark, StartsRemark l)
    (h : Reads s codeKinds at_ Kind.remark.token v at') :
    ∃ c w, v = c :: w ∧ isRemarkHead c = true := by
  obtain ⟨t, _, hresume, h⟩ := reads_cons.mp h
  have hno : (s.shelf .resume).cut Kind.remark.token = ⟨Kind.remark.token, []⟩ := by
    show cutTokens .resume Kind.remark.token = _
    decide
  obtain ⟨_, rfl, _⟩ := Shelf.fill_eq_ok_iff.mp hresume
  rw [hno] at h
  have hplain : ∀ ls, (Weave.mk Kind.remark.token []).fillWith ls = Kind.remark.token := by
    simp [Weave.fillWith]
  rw [hplain] at h
  obtain ⟨l, position, hremark, h⟩ := reads_cons.mp h
  obtain ⟨hlen, rfl, _⟩ := Shelf.fill_eq_ok_iff.mp hremark
  have hone : (s.shelf .remark).cut Kind.remark.token = ⟨[], [(Kind.remark.token, [])]⟩ := by
    show cutTokens .remark Kind.remark.token = _
    decide
  rw [Shelf.tokens, hone, Shelf.remaining] at hlen
  rw [hone] at h
  -- the next comment is there, and it is what the token is filled with
  obtain ⟨l, ls, hl⟩ := List.exists_cons_of_length_pos (l := (s.shelf .remark).literals.drop _)
    (by rw [List.length_drop]; exact hlen)
  have hmem : l ∈ l :: ls := List.mem_cons_self
  rw [← hl] at hmem
  have hin : l ∈ s.get .remark := List.mem_of_mem_drop hmem
  obtain ⟨c, u, rfl, hc⟩ := (hs l hin).remarkHead
  have hfilled : (Weave.mk [] [(Kind.remark.token, [])]).fillWith ((c :: u) :: ls) = [c] ++ u := by
    simp [Weave.fillWith]
  rw [hl, hfilled] at h
  have hfree : '\x00' ∉ [c] := by
    have := (isSign_iff.mp (isSign_of_isRemarkHead hc)).2.2.2.2.2
    simp [this.symm]
  obtain ⟨w, _, rfl⟩ := (reads_nul_free_append hfree).mp h
  exact ⟨c, w, rfl, hc⟩

/-- Behind the token of a comment the text before it is read as if it ended there. -/
theorem backTexts_remark {a b : Text} {at_ : PerKind Nat} {u : Text}
    (hs : ∀ l ∈ s.get .remark, StartsRemark l) (hb : (b.head?).all isBreak = true)
    (ha : Reads s codeKinds (PerKind.const 0) (a ++ [' ']) u at_)
    (hm : Matched s (a ++ [' '] ++ (Kind.remark.token ++ b))) :
    ∃ c w, (backTexts s (a ++ [' '] ++ (Kind.remark.token ++ b))).get .markup = u ++ c :: w ∧
      isRemarkHead c = true := by
  obtain ⟨at', hall⟩ := reads_backTexts hm
  have hspace : '\x00' ∉ [' '] := by decide
  have hhead : ∀ t, (([' '] ++ t).head?).all isBreak = true := fun _ => rfl
  rw [List.append_assoc] at hall
  obtain ⟨u₁, m₁, v₁, hu₁, hv₁, heq⟩ := (reads_append codeKinds_nodup (hhead _)).mp hall
  obtain ⟨v₂, hv₂, rfl⟩ := (reads_nul_free_append hspace).mp hv₁
  have hspaced : Reads s codeKinds m₁ [' '] [' '] m₁ := reads_of_nul_free hspace
  have hfront := (reads_append codeKinds_nodup (hhead [])).mpr ⟨u₁, m₁, [' '], hu₁, hspaced, rfl⟩
  obtain ⟨rfl, rfl⟩ := hfront.unique ha
  obtain ⟨v₃, m₂, v₄, hv₃, _, rfl⟩ := (reads_append codeKinds_nodup hb).mp hv₂
  obtain ⟨c, w, rfl, hc⟩ := reads_remark hs hv₃
  refine ⟨c, w ++ v₄, ?_, hc⟩
  rw [List.append_assoc]
  simpa using heq

end

/-! ## The finished document -/

/-- The text of lines in front of a place on one of them. -/
def frontOf (newline : Text) (lines : List Text) (i : Nat) (part : Text) : Text :=
  joinLines newline (lines.take i ++ [part])

/-- What is joined of lines is the text in front of a place and the text from there on. -/
theorem closeLines_at {newline : Text} (hne : newline ≠ [])
    (hn : ∀ c ∈ newline, isBreak c = true) (finalNewline : Bool) {lines : List Text} {i : Nat}
    {a b : Text} (h : lines[i]? = some (a ++ b)) :
    ∃ tail, closeLines newline finalNewline lines = frontOf newline lines i a ++ (b ++ tail) ∧
      (tail.head?).all isBreak = true := by
  have hbreak := head_breaks_append hne hn
  induction lines generalizing i with
  | nil => simp at h
  | cons l lines ih =>
    cases i with
    | zero =>
      obtain rfl := Option.some.inj h
      have hfront : frontOf newline ((a ++ b) :: lines) 0 a = a := by simp [frontOf]
      rw [hfront]
      cases lines with
      | nil =>
        rw [closeLines_singleton]
        cases finalNewline with
        | false => exact ⟨[], by simp, rfl⟩
        | true => exact ⟨newline, by simp, by simpa using hbreak []⟩
      | cons l' lines =>
        rw [closeLines_cons]
        exact ⟨_, List.append_assoc a b _, hbreak _⟩
    | succ i =>
      have hi : lines[i]? = some (a ++ b) := by simpa using h
      obtain ⟨tail, htail, hhead⟩ := ih hi
      refine ⟨tail, ?_, hhead⟩
      have hfront : frontOf newline (l :: lines) (i + 1) a =
          l ++ (newline ++ frontOf newline lines i a) := by
        obtain ⟨p, ps, hps⟩ := List.exists_cons_of_ne_nil
          (List.append_ne_nil_of_right_ne_nil (lines.take i) (List.cons_ne_nil a []))
        rw [frontOf, frontOf, List.take_succ_cons, List.cons_append, hps, joinLines_cons_cons]
      cases lines with
      | nil => simp at hi
      | cons l' lines =>
        rw [closeLines_cons, htail, hfront]
        simp

/-- A sign stands at a column. With all literals put back, the text in front of it is as wide on its
last line. And if no markup is on that line in front of it, it comes to stand at the column in the
finished text, behind what the text in front of it has become. -/
structure StandsAt (s : Shelves) (newline front text : Text) (starts : Char → Bool)
    (column : Nat) : Prop where
  restored : width (lastLine (filled s front .markup)) = column
  finished : '\x00' ∉ lastLine ((backTexts s front).get .markup) →
    ∃ c rest, text = unfenceScripts newline (backText s front) ++ c :: rest ∧ starts c = true ∧
      width (lastLine (unfenceScripts newline (backText s front))) = column

section
variable {s : Shelves} {newline : Text} (hn : ∃ n, newline = n ++ ['\n'])
  (hbreak : ∀ c ∈ newline, isBreak c = true) {finalNewline : Bool} {lines : List Text}
  (hm : Matched s (closeLines newline finalNewline lines))
include hn hbreak hm

/-- A sign stands where the text in front of it is read to, if what is behind that is read apart. -/
theorem StandsAt.of_readAt {starts : Char → Bool} (hstarts : ∀ c, starts c = true → isSign c = true)
    {i column : Nat} {a b u : Text} (hi : lines[i]? = some (a ++ b)) (hread : ReadAt s lines i a u)
    (hwidth : width (lastLine u) = column)
    (hsign : ∀ tail middle, (tail.head?).all isBreak = true →
      Reads s codeKinds (PerKind.const 0) (frontOf newline lines i a)
        ((backTexts s (frontOf newline lines i a)).get .markup) middle →
      Matched s (frontOf newline lines i a ++ (b ++ tail)) →
      ∃ c w, (backTexts s (frontOf newline lines i a ++ (b ++ tail))).get .markup =
        (backTexts s (frontOf newline lines i a)).get .markup ++ c :: w ∧ starts c = true) :
    StandsAt s newline (frontOf newline lines i a)
      (unfenceScripts newline (backText s (closeLines newline finalNewline lines))) starts
      column := by
  have hne : newline ≠ [] := by
    obtain ⟨n, rfl⟩ := hn
    simp
  obtain ⟨us, middle, at', hall, hpart⟩ := hread
  have hjoined : Reads s Kind.backOrder (PerKind.const 0) (frontOf newline lines i a)
      (joinLines newline (us ++ [u])) at' :=
    (reads_joinLines backOrder_nodup hne hbreak).mpr ⟨_, hall.append (.cons hpart .nil), rfl⟩
  -- with the markup the text in front is as wide as measured, and what pads the markup comes later
  obtain ⟨hfilled, hlen, middle', hcode⟩ := reads_all hjoined
  have hrestored : width (lastLine (filled s (frontOf newline lines i a) .markup)) = column := by
    rw [← hfilled, lastLine_joinLines hn, hwidth]
  refine ⟨hrestored, fun hfree => ?_⟩
  obtain ⟨tail, htext, htail⟩ := closeLines_at hne hbreak finalNewline hi
  rw [htext] at hm ⊢
  obtain ⟨c, w, hw, hc⟩ := hsign tail middle' htail hcode hm
  obtain ⟨rest, hrest, hline⟩ := @putBack_front newline hn (s.get .markup) _ w c hlen hfree
    (hstarts c hc)
  refine ⟨c, rest, ?_, hc, ?_⟩
  · rw [← hw] at hrest
    exact hrest
  · have hlast : lastLine (filled s (frontOf newline lines i a) .markup) =
        lastLine ((backTexts s (frontOf newline lines i a)).get .markup) :=
      lastLine_fillWith hfree _ hlen
    rw [← hrestored, hlast]
    exact congrArg width hline

end

theorem newlineOf_feed (raw : Text) : ∃ n, newlineOf raw = n ++ ['\n'] := by
  rw [newlineOf]
  split
  · exact ⟨['\r'], rfl⟩
  · exact ⟨[], rfl⟩

/-- In a finished document the equals signs of each run of assignments, and the comments of each run
of comments behind code, stand at one column: in the text with all literals put back, and in the
text that comes out wherever no markup stands before the sign on its line. -/
theorem aligned_in_one_column {settings : Settings} {style : Style} {raw : Text} {f : Formatted}
    (hnul : '\x00' ∉ raw) (hstyle : settings.style = .ok style)
    (hclear : fenceScripts raw = raw ∨ ¬ Astray style raw) (h : format settings raw = .ok f) :
    ∃ worked recased assigned,
      (workLines style (Lifting.result raw).shelves (Lifting.result raw).lines).outcome =
        .ok worked ∧
      recase style.letterCase (spacedLines style raw) = .ok recased ∧
      assignmentMarker.align (Lifting.result raw).shelves (layOut style.unit (nest recased)) =
        .ok assigned ∧
      remarkMarker.align (Lifting.result raw).shelves assigned = .ok worked.lines ∧
      (∀ run ∈ assignmentMarker.runs (layOut style.unit (nest recased)), ∃ column, ∀ i ∈ run,
        ∃ line place, worked.lines[i]? = some line ∧ find? ['='] line = some place ∧
          StandsAt (Lifting.result raw).shelves (newlineOf raw)
            (frontOf (newlineOf raw) worked.lines i (line.take place)) f.text (· == '=') column) ∧
      ∀ run ∈ remarkMarker.runs assigned, ∃ column, ∀ i ∈ run,
        ∃ line place, worked.lines[i]? = some line ∧ find? Kind.remark.token line = some place ∧
          StandsAt (Lifting.result raw).shelves (newlineOf raw)
            (frontOf (newlineOf raw) worked.lines i (line.take place)) f.text isRemarkHead
            column := by
  obtain ⟨style', worked, hstyle', _, hwork, hm, _, htext⟩ := format_ok h
  obtain rfl : style' = style := Except.ok.inj (hstyle'.symm.trans hstyle)
  -- without a fence a name astray would have kept the document from coming out
  have hastray : ¬ Astray style' raw := by
    rcases hclear with hfence | hclear
    · exact fun hastray => not_ok_of_astray hnul hstyle hfence hastray f h
    · exact hclear
  obtain ⟨recased, assigned, hr, hassign, halign⟩ := workLines_ok hwork
  rw [← spacedLines] at hr
  obtain ⟨hlaid, hassigned, hworked⟩ :=
    clear_lines hnul (Settings.style_ok hstyle).1 hastray hr hassign halign
  obtain ⟨_, hbreak⟩ := newlineOf_breaks raw
  have hn := newlineOf_feed raw
  rw [workedText] at hm htext
  refine ⟨worked, recased, assigned, hwork, hr, hassign, halign, fun run hrun => ?_,
    fun run hrun => ?_⟩
  · obtain ⟨column, hcolumn⟩ := align_assignments hlaid hassign hrun
    refine ⟨column, fun i hi => ?_⟩
    obtain ⟨a, b, u, hline, hfirst, hread, hwidth⟩ := hcolumn i hi
    -- the comments are moved afterwards, which leaves each line up to its equals sign
    obtain ⟨line, hout, hmove⟩ := forall₂_getElem? (align_moves halign) hline
    obtain ⟨b', rfl⟩ := equals_of_moved (hassigned _ (List.mem_of_getElem? hline)) hmove
    refine ⟨_, a.length, hout, find?_char hfirst b', ?_⟩
    rw [List.take_left, htext]
    refine StandsAt.of_readAt hn hbreak hm ?_ hout
      (hread.respaced (respaced_align (.inr rfl) hassigned halign)) hwidth ?_
    · intro c hc
      obtain rfl : c = '=' := by simpa using hc
      decide
    · intro tail middle _ hcode hmatch
      obtain ⟨w, hw⟩ := backTexts_equals (b := b' ++ tail) hcode hmatch
      exact ⟨'=', w, hw, rfl⟩
  · obtain ⟨column, hcolumn⟩ := align_remarks hassigned halign hrun
    refine ⟨column, fun i hi => ?_⟩
    obtain ⟨a, u, hout, hread, hwidth⟩ := hcolumn i hi
    have hfind := find?_remark (hworked _ (List.mem_of_getElem? hout))
    refine ⟨_, _, hout, hfind, ?_⟩
    rw [List.take_left, htext]
    refine StandsAt.of_readAt hn hbreak hm (fun c hc => isSign_of_isRemarkHead hc) hout hread
      hwidth ?_
    intro tail middle htail hcode hmatch
    have hstarts : ∀ l ∈ (Lifting.result raw).shelves.get .remark, StartsRemark l := by
      intro l hl
      rw [shelves_eq, if_neg (by decide)] at hl
      exact startsRemark_of_hit hl
    -- the space before a comment is a break, so the token is read apart from the code
    have hfront : frontOf (newlineOf raw) worked.lines i (a ++ [' ']) =
        frontOf (newlineOf raw) worked.lines i a ++ [' '] := joinLines_append_last _ _ _ _
    rw [hfront] at hcode hmatch ⊢
    exact backTexts_remark hstarts htail hcode hmatch

/-- Two assignments, the first to an element that a string with a wide character names. -/
def wideThenPlain : Text :=
  "x(\"你\")=1\ny=2".toList

theorem format_wideThenPlain : (format {} wideThenPlain).map Formatted.text =
    .ok "x(\"你\") = 1\ny       = 2".toList := by
  decide +kernel

theorem recase_wideThenPlain :
    recase .proper (spacedLines ⟨List.replicate 4 ' ', .proper, true⟩ wideThenPlain) =
      .ok ["x(\x00quoted\x00) = 1".toList, "y = 2".toList] := by
  decide

/-- Both equals signs stand at one column. -/
theorem wideThenPlain_aligned :
    ∃ (f : Formatted) (worked : Worked) (column : Nat), format {} wideThenPlain = .ok f ∧
      ∀ i ∈ [0, 1], ∃ line place,
      worked.lines[i]? = some line ∧ find? ['='] line = some place ∧
      StandsAt (Lifting.result wideThenPlain).shelves (newlineOf wideThenPlain)
        (frontOf (newlineOf wideThenPlain) worked.lines i (line.take place)) f.text (· == '=')
        column := by
  obtain ⟨f, hf, _⟩ := ok_of_map format_wideThenPlain
  obtain ⟨worked, recased, _, _, hr, _, _, hassignments, _⟩ :=
    @aligned_in_one_column {} ⟨List.replicate 4 ' ', .proper, true⟩ wideThenPlain f (by decide)
      (by decide) (.inl (by decide)) hf
  obtain rfl := Except.ok.inj (hr.symm.trans recase_wideThenPlain)
  obtain ⟨column, hcolumn⟩ := hassignments [0, 1] (by decide)
  exact ⟨f, worked, column, hf, hcolumn⟩

/-- Code behind a delimiter is padded after the columns have been measured: the two comments of the
one run do not stand at one column. -/
theorem apart_delimitedThenPlain :
    '\x00' ∉ delimitedThenPlain ∧ ∃ f, format {} delimitedThenPlain = .ok f ∧
      f.stats.remarkBlocks = 1 ∧ f.text = "<% x ".toList ++ '\'' :: "\nx   '".toList ∧
      f.text = "<% x '\nx   ".toList ++ ['\''] ∧
      width (lastLine "<% x ".toList) ≠ width (lastLine "<% x '\nx   ".toList) := by
  have hrun : (format {} delimitedThenPlain).map (fun f => (f.text, f.stats.remarkBlocks)) =
      .ok ("<% x '\nx   '".toList, 1) := by
    decide
  obtain ⟨f, hf, hpair⟩ := ok_of_map hrun
  obtain ⟨htext, hblocks⟩ := Prod.mk.inj hpair
  exact ⟨by decide, f, hf, hblocks, htext, htext, by decide⟩

end VbTidy
