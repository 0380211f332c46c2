import VbTidy.Proofs.Blocks
import VbTidy.Proofs.Placed
import VbTidy.Proofs.Shifted

/-
Where the first opening fence of a document stands. A tag that opens a block is taken up to the first
bracket behind its name, whether that bracket ends the tag or stands in the value of an attribute:
quotes within the tag are not looked at. So the fence stands right behind the tag if no value holds
a bracket. If one does, the fence does not, as long as each value is on one line: what is left of the
tag holds no place where a tag could start outside of quotes (`fence_behind_tag`).
-/
namespace VbTidy

/-- An attribute of a tag with the white space in front: a name without quotes and brackets, and a
value in double quotes. -/
structure Attribute where
  gap : Text
  name : Text
  value : Text
  gap_ne_nil : gap ≠ []
  gap_space : ∀ c ∈ gap, isSpace c = true
  name_plain : ∀ c ∈ name, c ≠ '"' ∧ c ≠ '<' ∧ c ≠ '>'
  value_quoteless : '"' ∉ value

/-- What stands before the value of an attribute. -/
def Attribute.lead (a : Attribute) : Text :=
  a.gap ++ (a.name ++ ['=', '"'])

/-- An attribute as it stands in its tag. -/
def Attribute.written (a : Attribute) : Text :=
  a.lead ++ (a.value ++ ['"'])

/-- The attributes of a tag. -/
def writtenAll (attributes : List Attribute) : Text :=
  attributes.flatMap Attribute.written

/-- The start of a script tag. -/
def tagStart : Text :=
  "<script".toList

/-- A script tag with its attributes. -/
def scriptTag (attributes : List Attribute) : Text :=
  tagStart ++ (writtenAll attributes ++ ['>'])

/-- The first opening fence of a document stands right behind its front. -/
def FencedBehind (front rest : Text) : Prop :=
  find? openFence (fenceScripts (front ++ rest)) = some front.length

instance (front rest : Text) : Decidable (FencedBehind front rest) :=
  inferInstanceAs (Decidable (_ = _))

/-! ## The first fence in a record -/

theorem openFence_eq : openFence = '\x00' :: "clientscript\x00<%".toList := by
  decide

/-- What starts with a character is found where that character first stands. -/
theorem find?_of_head {c : Char} {part x : Text} (hx : c ∉ x) (y : Text) :
    find? (c :: part) (x ++ (c :: part ++ y)) = some x.length := by
  induction x with
  | nil => simpa using find?_self (List.cons_ne_nil c part) y
  | cons d x ih =>
    rw [List.mem_cons, not_or] at hx
    have hne : ¬ (c :: part).isPrefixOf (d :: (x ++ (c :: part ++ y))) = true := by
      rw [List.isPrefixOf_iff_prefix, List.cons_prefix_cons]
      exact fun h => hx.1 h.1
    rw [List.cons_append, find?, if_neg hne, ih hx.2]
    rfl

/-- In front of a first fence there is one text only. -/
theorem text_before_fence {x y : Text} {fs gs : List Fenced}
    (h : x.map .text ++ .opening :: fs = y.map .text ++ .opening :: gs) : x = y := by
  obtain ⟨w, hw, hopen⟩ := fence_behind (by simp) h
  cases w with
  | nil =>
    rw [List.append_nil] at hw
    exact (List.map_injective_iff.mpr (fun c d hcd => Fenced.text.inj hcd) hw).symm
  | cons f w =>
    obtain ⟨rfl, -⟩ := List.cons.inj hopen
    have hmem : Fenced.opening ∈ y.map Fenced.text := by simp [hw]
    simp at hmem

/-- The first fence of a document without NUL is where the first opening one is found. -/
theorem fencedBehind_iff {front rest : Text} (hfree : '\x00' ∉ front ++ rest) :
    FencedBehind front rest ↔
      ∃ fs, fence (front ++ rest) = front.map .text ++ .opening :: fs := by
  have hblocks : Blocks false [] (front ++ rest) (fence (front ++ rest)) :=
    blocks_fenceFrom false [] (front ++ rest)
  rw [FencedBehind, fenceScripts]
  generalize hdoc : front ++ rest = doc at hfree hblocks
  generalize fence doc = parts at hblocks
  cases hblocks with
  | rest =>
    rw [written_text]
    constructor
    · intro h
      obtain ⟨⟨x, y, rfl, -⟩, -⟩ := find?_eq_some h
      exact absurd (by simp [openFence_eq]) hfree
    · rintro ⟨fs, hfs⟩
      have hmem : Fenced.opening ∈ doc.map Fenced.text := by simp [hfs]
      simp at hmem
  | @opened _ s tag t fs htag hquotes hmore =>
    have hfront : '\x00' ∉ s ++ tag := by
      rw [← List.append_assoc, List.mem_append, not_or] at hfree
      exact hfree.1
    have hwritten : ((s ++ tag).map Fenced.text ++ .opening :: fs).flatMap Fenced.written =
        (s ++ tag) ++ (openFence ++ fs.flatMap Fenced.written) := by
      rw [List.flatMap_append, written_text]
      rfl
    rw [hwritten, openFence_eq, find?_of_head hfront]
    constructor
    · intro h
      have hlen : (s ++ tag).length = front.length := Option.some.inj h
      rw [← List.append_assoc] at hdoc
      obtain ⟨rfl, -⟩ := List.append_inj hdoc hlen.symm
      exact ⟨fs, rfl⟩
    · rintro ⟨gs, h⟩
      rw [text_before_fence h]

/-! ## A tag that is taken -/

theorem hasWord_of_part {word v : Text} (hv : isSameWord word v = true) (x y : Text) :
    hasWord word (x ++ (v ++ y)) = true := by
  rw [isSameWord, beq_iff_eq] at hv
  induction x with
  | nil =>
    cases hpart : v ++ y with
    | nil =>
      obtain rfl := (List.append_eq_nil_iff.mp hpart).1
      cases word with
      | nil => rfl
      | cons l word => cases hv
    | cons c t =>
      rw [List.nil_append, hasWord, ← hpart, dropWord?_longer hv y]
      rfl
  | cons c x ih => rw [List.cons_append, hasWord, ih, Bool.or_true]

/-- A tag is taken up to the first bracket behind its name, if the language is named before that. -/
theorem dropOpenTag?_front {front : Text} (hfree : '>' ∉ front) (hword : wordAt front.head? = false)
    (rest : Text) : dropOpenTag? (tagStart ++ (front ++ '>' :: rest)) =
      if hasWord "vbscript".toList front then some rest else none := by
  have hself : dropWord? "script".toList "script".toList = some [] := by decide
  have hname : dropWord? "script".toList ("script".toList ++ (front ++ '>' :: rest)) =
      some (front ++ '>' :: rest) := dropWord?_longer hself _
  have hedge : wordAt (front ++ '>' :: rest).head? = false := by
    cases front with
    | nil => rfl
    | cons c front => exact hword
  have hpass : ∀ c ∈ front, (c != '>') = true := by
    intro c hc
    rw [bne_iff_ne]
    rintro rfl
    exact hfree hc
  have htake : (front ++ '>' :: rest).takeWhile (· != '>') = front := by
    rw [List.takeWhile_append_of_pos hpass, List.takeWhile_cons_of_neg (by simp), List.append_nil]
  have hdrop : (front ++ '>' :: rest).dropWhile (· != '>') = '>' :: rest := by
    rw [List.dropWhile_append_of_pos hpass, List.dropWhile_cons_of_neg (by simp)]
  show dropOpenTag? ('<' :: ("script".toList ++ (front ++ '>' :: rest))) = _
  have hspace : ("script".toList ++ (front ++ '>' :: rest)).dropWhile isSpace =
      "script".toList ++ (front ++ '>' :: rest) := rfl
  simp only [dropOpenTag?, hspace, hname, hedge, htake, hdrop]
  rfl

theorem dropOpenTag?_other {c : Char} (hc : c ≠ '<') (t : Text) : dropOpenTag? (c :: t) = none := by
  unfold dropOpenTag?
  split
  · next heq => exact absurd (List.cons.inj heq).1 hc
  · rfl

/-- A tag that is taken starts with its bracket. -/
theorem openTag_start {tag t : Text} (h : dropOpenTag? (tag ++ t) = some t) :
    ∃ r, tag = '<' :: r := by
  obtain ⟨u, rfl⟩ := openTag_end h
  obtain ⟨c, r, hcons⟩ : ∃ c r, u ++ ['>'] = c :: r := List.exists_cons_of_ne_nil (by simp)
  rw [hcons, List.cons_append] at h
  by_cases hc : c = '<'
  · exact ⟨r, by rw [hcons, hc]⟩
  · rw [dropOpenTag?_other hc] at h
    cases h

theorem append_bracket (x y s : Text) : x ++ (y ++ ['>']) ++ s = x ++ (y ++ '>' :: s) := by
  simp

/-! ## The text in front of a tag -/

/-- Without quotes a string that is open stays open up to the end of its line, and none is opened. -/
theorem quoteAfter_quoteless {t : Text} (hquote : '"' ∉ t) {quoted : Bool}
    (hfeed : quoted = true → '\n' ∉ t) : t.foldl quoteAfter quoted = quoted := by
  induction t with
  | nil => rfl
  | cons c t ih =>
    rw [List.mem_cons, not_or] at hquote
    have hhere : quoteAfter quoted c = quoted := by
      cases quoted with
      | false => simp [quoteAfter, Ne.symm hquote.1]
      | true =>
        have hc : c ≠ '\n' := fun hc => hfeed rfl (by rw [hc]; exact List.mem_cons_self)
        simp [quoteAfter, hc, Ne.symm hquote.1]
    rw [List.foldl_cons, hhere]
    exact ih hquote.2 fun h hm => hfeed h (List.mem_cons_of_mem c hm)

/-- A text in which no tag starts is passed over. -/
theorem fenceFrom_pass {p : Text} (hopen : '<' ∉ p) (quoted : Bool) (t : Text) :
    fenceFrom false quoted false 0 (p ++ t) =
      p.map .text ++ fenceFrom false (p.foldl quoteAfter quoted) false 0 t := by
  induction p generalizing quoted with
  | nil => rfl
  | cons c p ih =>
    rw [List.mem_cons, not_or] at hopen
    rw [List.cons_append, fenceFrom, if_neg (by simp), dropOpenTag?_other (Ne.symm hopen.1)]
    simp only
    rw [ih hopen.2]
    rfl

/-- The first tag outside of quotes that is taken has the first fence behind it. -/
theorem fence_of_openTag {p tag s : Text} (hquote : '"' ∉ p) (hopen : '<' ∉ p)
    (htag : dropOpenTag? (tag ++ s) = some s) :
    ∃ fs, fence (p ++ tag ++ s) = (p ++ tag).map .text ++ .opening :: fs := by
  obtain ⟨r, rfl⟩ := openTag_start htag
  have hne : r ≠ [] := by
    rintro rfl
    obtain ⟨u, hu⟩ := openTag_end htag
    have hlast := congrArg List.getLast? hu
    simp at hlast
  have hskip : (r ++ s).length - s.length = r.length := by
    rw [List.length_append]
    omega
  rw [List.cons_append] at htag
  rw [fence, List.append_assoc, fenceFrom_pass hopen, quoteAfter_quoteless hquote (by simp),
    List.cons_append, fenceFrom, if_neg (by simp), htag]
  simp only [hskip, fenceFrom_tag hne]
  refine ⟨fenceFrom true (r.foldl quoteAfter (quoteAfter false '<')) true 0 s, ?_⟩
  simp

/-! ## Attributes -/

section Attributes
variable {attributes : List Attribute}

theorem writtenAll_cons (a : Attribute) (attributes : List Attribute) :
    writtenAll (a :: attributes) = a.written ++ writtenAll attributes :=
  List.flatMap_cons

/-- Before the value of an attribute there are no brackets. -/
theorem Attribute.bracket_not_mem_lead (a : Attribute) {c : Char} (hc : c = '<' ∨ c = '>') :
    c ∉ a.lead := by
  rw [Attribute.lead, List.mem_append, List.mem_append, not_or, not_or]
  refine ⟨?_, ?_, ?_⟩
  · intro hm
    have hspace := a.gap_space c hm
    rcases hc with rfl | rfl <;> exact absurd hspace (by decide)
  · intro hm
    obtain ⟨-, hopen, hclose⟩ := a.name_plain c hm
    exact hc.elim hopen hclose
  · rcases hc with rfl | rfl <;> decide

/-- A bracket of an attribute stands in its value. -/
theorem Attribute.bracket_mem_written (a : Attribute) {c : Char} (hc : c = '<' ∨ c = '>') :
    c ∈ a.written ↔ c ∈ a.value := by
  have hquote : c ∉ ['"'] := by rcases hc with rfl | rfl <;> decide
  rw [Attribute.written, List.mem_append, List.mem_append]
  simp only [a.bracket_not_mem_lead hc, hquote, false_or, or_false]

theorem bracket_mem_writtenAll :
    '>' ∈ writtenAll attributes ↔ ∃ a ∈ attributes, '>' ∈ a.value := by
  rw [writtenAll, List.mem_flatMap]
  simp only [Attribute.bracket_mem_written _ (.inr rfl)]

/-- Behind the name of a tag there is white space or its bracket. -/
theorem wordAt_writtenAll : wordAt (writtenAll attributes).head? = false := by
  cases attributes with
  | nil => rfl
  | cons a attributes =>
    obtain ⟨c, gap, hgap⟩ := List.exists_cons_of_ne_nil a.gap_ne_nil
    have hspace := a.gap_space c (by simp [hgap])
    rw [writtenAll_cons, Attribute.written, Attribute.lead, hgap]
    exact isWord_of_isBreak (isBreak_of_isSpace hspace)

theorem hasWord_writtenAll {word : Text} {a : Attribute} (ha : a ∈ attributes)
    (hvalue : isSameWord word a.value = true) : hasWord word (writtenAll attributes) = true := by
  obtain ⟨front, behind, rfl⟩ := List.append_of_mem ha
  have hpart : writtenAll (front ++ a :: behind) =
      (writtenAll front ++ a.lead) ++ (a.value ++ (['"'] ++ writtenAll behind)) := by
    simp [writtenAll, Attribute.written]
  rw [hpart]
  exact hasWord_of_part hvalue _ _

/-- Before the value of an attribute a string is opened. -/
theorem Attribute.quoteAfter_lead (a : Attribute) :
    a.lead.foldl quoteAfter false = true := by
  have hgap : '"' ∉ a.gap := fun hm => absurd (a.gap_space _ hm) (by decide)
  have hname : '"' ∉ a.name := fun hm => (a.name_plain _ hm).1 rfl
  rw [Attribute.lead, List.foldl_append, List.foldl_append, quoteAfter_quoteless hgap (by simp),
    quoteAfter_quoteless hname (by simp)]
  rfl

/-- Behind an attribute with its value on one line no string is open. -/
theorem Attribute.quoteAfter_written {a : Attribute} (hline : '\n' ∉ a.value) :
    a.written.foldl quoteAfter false = false := by
  rw [Attribute.written, List.foldl_append, a.quoteAfter_lead, List.foldl_append,
    quoteAfter_quoteless a.value_quoteless fun _ => hline]
  rfl

/-- In such an attribute a string is open wherever a tag could start. -/
theorem Attribute.quoted_within {a : Attribute} (hline : '\n' ∉ a.value) {w r : Text}
    (h : a.written = w ++ '<' :: r) : w.foldl quoteAfter false = true := by
  obtain ⟨x, rfl, hvalue⟩ := behind_free (a.bracket_not_mem_lead (.inl rfl)) h
  have hx : x <+: a.value := by
    have hlen := congrArg List.length hvalue
    simp only [List.length_append, List.length_cons, List.length_nil] at hlen
    exact List.prefix_of_prefix_length_le ⟨_, hvalue.symm⟩ (List.prefix_append _ _) (by omega)
  rw [List.foldl_append, a.quoteAfter_lead]
  exact quoteAfter_quoteless (fun hm => a.value_quoteless (hx.subset hm))
    fun _ hm => hline (hx.subset hm)

/-- Outside of quotes no tag starts in the rest of a tag with its values on one line each. -/
theorem quoted_in_tag (hline : ∀ a ∈ attributes, '\n' ∉ a.value) {w r : Text}
    (h : writtenAll attributes ++ ['>'] = w ++ '<' :: r) : w.foldl quoteAfter false = true := by
  induction attributes generalizing w with
  | nil =>
    have hmem : '<' ∈ writtenAll [] ++ ['>'] := by simp [h]
    exact absurd hmem (by decide)
  | cons a attributes ih =>
    rw [List.forall_mem_cons] at hline
    rw [writtenAll_cons, List.append_assoc] at h
    rcases List.append_eq_append_iff.mp h with ⟨x, rfl, hx⟩ | ⟨y, hy, hr⟩
    · rw [List.foldl_append, Attribute.quoteAfter_written hline.1]
      exact ih hline.2 hx
    · cases y with
      | nil =>
        -- the next attribute would start with the bracket
        cases ih hline.2 (w := []) hr.symm
      | cons c y =>
        obtain ⟨rfl, -⟩ := List.cons.inj hr
        exact Attribute.quoted_within hline.1 hy

end Attributes

theorem scriptTag_eq (attributes : List Attribute) :
    scriptTag attributes = '<' :: ("script".toList ++ (writtenAll attributes ++ ['>'])) :=
  rfl

/-- A tag that names the language before its first bracket has the first fence right behind that
bracket, whatever the bracket stands in. -/
theorem fence_behind_bracket {p front : Text} (hquote : '"' ∉ p) (hopen : '<' ∉ p)
    (hfree : '>' ∉ front) (hword : wordAt front.head? = false)
    (hlanguage : hasWord "vbscript".toList front = true) (rest : Text) :
    ∃ fs, fence (p ++ (tagStart ++ (front ++ ['>'])) ++ rest) =
      (p ++ (tagStart ++ (front ++ ['>']))).map .text ++ .opening :: fs := by
  apply fence_of_openTag hquote hopen
  rw [append_bracket, dropOpenTag?_front hfree hword, hlanguage, if_pos rfl]

/-- If a value holds a bracket, the tag is not taken as a whole. -/
theorem dropOpenTag?_scriptTag_ne {attributes : List Attribute} {a : Attribute}
    (ha : a ∈ attributes) (hvalue : '>' ∈ a.value) (s : Text) :
    dropOpenTag? (scriptTag attributes ++ s) ≠ some s := by
  obtain ⟨front, behind, hsplit, hfree⟩ :=
    List.eq_append_cons_of_mem (bracket_mem_writtenAll.mpr ⟨a, ha, hvalue⟩)
  have hbracket : writtenAll attributes ++ '>' :: s = front ++ '>' :: (behind ++ '>' :: s) := by
    simp [hsplit]
  have hword : wordAt front.head? = false := by
    have hall : wordAt (writtenAll attributes).head? = false := wordAt_writtenAll
    rw [hsplit] at hall
    cases front with
    | nil => rfl
    | cons c front => exact hall
  rw [scriptTag, append_bracket, hbracket, dropOpenTag?_front hfree hword]
  split
  · intro h
    have hlen := congrArg List.length (Option.some.inj h)
    simp at hlen
    omega
  · simp

/-- A fence right behind a tag with its values on one line each stands there because the tag was
taken. -/
theorem openTag_of_fence {p s : Text} {attributes : List Attribute} (hquote : '"' ∉ p)
    (hopen : '<' ∉ p) (hline : ∀ a ∈ attributes, '\n' ∉ a.value) {fs : List Fenced}
    (h : fence (p ++ scriptTag attributes ++ s) =
      (p ++ scriptTag attributes).map .text ++ .opening :: fs) :
    dropOpenTag? (scriptTag attributes ++ s) = some s := by
  have hblocks : Blocks false [] (p ++ scriptTag attributes ++ s)
      (fence (p ++ scriptTag attributes ++ s)) :=
    blocks_fenceFrom false [] (p ++ scriptTag attributes ++ s)
  rw [h] at hblocks
  have hchars : charsOf fs = s := by
    have hall := hblocks.chars
    rw [charsOf_append, charsOf_text] at hall
    exact List.append_cancel_left hall
  obtain ⟨u, tag, hu, htag, heven⟩ := hblocks.opening_behind rfl
  rw [hchars] at htag
  have hplace : p ++ scriptTag attributes = charsOf u ++ tag := by
    have hall := congrArg charsOf hu
    rwa [charsOf_text, charsOf_append, charsOf_text] at hall
  generalize charsOf u = before at heven hplace
  obtain ⟨r, rfl⟩ := openTag_start htag
  obtain ⟨w, rfl, hrest⟩ := behind_free hopen hplace
  cases w with
  | nil =>
    rw [List.nil_append] at hrest
    rwa [hrest]
  | cons c w =>
    -- the tag that was taken would start in a value
    rw [scriptTag_eq] at hrest
    obtain ⟨rfl, hbehind⟩ := List.cons.inj hrest
    have hname : '<' ∉ "script".toList := by decide
    obtain ⟨x, rfl, hattributes⟩ := behind_free hname hbehind
    rw [List.nil_append, ← quoteAfter_eq_false, List.foldl_append,
      quoteAfter_quoteless hquote (by simp), List.foldl_cons, List.foldl_append] at heven
    have hstart : "script".toList.foldl quoteAfter (quoteAfter false '<') = false := by decide
    rw [hstart, quoted_in_tag hline hattributes] at heven
    cases heven

/-- In a document without NUL, let no quote and no bracket stand before a script tag that names the
language in one of its attributes. If no value of the tag holds a bracket that ends tags, the first
opening fence stands right behind the tag; and where each value is on one line, only then. -/
theorem fence_behind_tag {p s : Text} {attributes : List Attribute}
    (hfree : '\x00' ∉ p ++ scriptTag attributes ++ s) (hquote : '"' ∉ p) (hopen : '<' ∉ p)
    (hlanguage : ∃ a ∈ attributes, isSameWord "vbscript".toList a.value = true) :
    ((∀ a ∈ attributes, '>' ∉ a.value) → FencedBehind (p ++ scriptTag attributes) s) ∧
    ((∀ a ∈ attributes, '\n' ∉ a.value) → FencedBehind (p ++ scriptTag attributes) s →
      ∀ a ∈ attributes, '>' ∉ a.value) := by
  rw [fencedBehind_iff hfree]
  constructor
  · intro hvalues
    obtain ⟨a, ha, hvalue⟩ := hlanguage
    have hbracket : '>' ∉ writtenAll attributes := by
      rw [bracket_mem_writtenAll]
      rintro ⟨b, hb, hm⟩
      exact hvalues b hb hm
    exact fence_behind_bracket hquote hopen hbracket wordAt_writtenAll
      (hasWord_writtenAll ha hvalue) s
  · rintro hline ⟨fs, hfs⟩ a ha hvalue
    exact dropOpenTag?_scriptTag_ne ha hvalue s (openTag_of_fence hquote hopen hline hfs)

/-- The attribute that names the language, written in capitals. -/
def languageAttribute : Attribute where
  gap := ['\n', '\t']
  name := "language".toList
  value := "VBScript".toList
  gap_ne_nil := by decide
  gap_space := by decide
  name_plain := by decide
  value_quoteless := by decide

/-- An attribute with an inline expression in its value. -/
def sourceAttribute : Attribute where
  gap := [' ']
  name := "src".toList
  value := "<%= u %>".toList
  gap_ne_nil := by decide
  gap_space := by decide
  name_plain := by decide
  value_quoteless := by decide

/-- An attribute with an opening bracket in its value. -/
def ruleAttribute : Attribute where
  gap := [' ']
  name := "data-rule".toList
  value := "a <script".toList
  gap_ne_nil := by decide
  gap_space := by decide
  name_plain := by decide
  value_quoteless := by decide

theorem fence_behind_ruledTag :
    '\x00' ∉ "x>\n".toList ++ scriptTag [ruleAttribute, languageAttribute] ++ "y=1".toList ∧
    '"' ∉ "x>\n".toList ∧ '<' ∉ "x>\n".toList ∧
    (∃ a ∈ [ruleAttribute, languageAttribute], isSameWord "vbscript".toList a.value = true) ∧
    (∀ a ∈ [ruleAttribute, languageAttribute], '>' ∉ a.value) ∧
    FencedBehind ("x>\n".toList ++ scriptTag [ruleAttribute, languageAttribute]) "y=1".toList := by
  have hfree : '\x00' ∉ "x>\n".toList ++ scriptTag [ruleAttribute, languageAttribute] ++
      "y=1".toList := by decide
  have hquote : '"' ∉ "x>\n".toList := by decide
  have hopen : '<' ∉ "x>\n".toList := by decide
  have hlanguage : ∃ a ∈ [ruleAttribute, languageAttribute],
      isSameWord "vbscript".toList a.value = true :=
    ⟨languageAttribute, by simp, by decide⟩
  have hvalues : ∀ a ∈ [ruleAttribute, languageAttribute], '>' ∉ a.value := by decide
  exact ⟨hfree, hquote, hopen, hlanguage, hvalues,
    (fence_behind_tag hfree hquote hopen hlanguage).1 hvalues⟩

/-- The end of an inline expression in a value is taken for the end of the tag. -/
theorem fence_within_tag :
    ¬ ∀ (p s : Text) (attributes : List Attribute), '\x00' ∉ p ++ scriptTag attributes ++ s →
      '"' ∉ p → '<' ∉ p → (∃ a ∈ attributes, isSameWord "vbscript".toList a.value = true) →
        FencedBehind (p ++ scriptTag attributes) s := by
  intro h
  have hbehind := h [] [] [languageAttribute, sourceAttribute] (by decide) (by decide)
    (by decide) ⟨languageAttribute, by simp, by decide⟩
  revert hbehind
  decide

end VbTidy
