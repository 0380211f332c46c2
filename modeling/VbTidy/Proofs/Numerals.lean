import VbTidy.Proofs.Spaced

/-
Numerals among operators. The prefix of a hexadecimal or octal number and the sign of an exponent
are characters of operators, and are set as part of their number. The mark that may close a
hexadecimal or octal number is not: it is set as an operator behind the number.

What is proved:
  1. `soFar_operator`: the text so far when an operator and the plain text behind it are set.
  2. `soFar_plain`: the text so far when it ends with plain text.
  3. `numerals_come_out_whole`: nothing is set within a number before its closing mark, and a space
     is always set before that mark.
  4. `closing_mark_set_off`: so a number with its closing mark is broken.
-/
namespace VbTidy

/-! ## Digits -/

theorem rangeOf?_within {rs : List (Nat × Nat)} {lo n : Nat} {w : Nat × Nat}
    (h : rangeOf? rs lo = some w) (hlo : lo ≤ n) (hn : n ≤ w.2) : rangeOf? rs n = some w := by
  induction rs with
  | nil => cases h
  | cons a rs ih =>
    rw [rangeOf?] at h ⊢
    split at h
    · cases h
    · rename_i hstart
      rw [if_neg (by omega)]
      split at h
      · obtain rfl := Option.some.inj h
        rw [if_pos hn]
      · rw [if_neg (by omega)]
        exact ih h

theorem mem_of_rangeOf? {rs : List (Nat × Nat)} {n : Nat} {r : Nat × Nat}
    (h : rangeOf? rs n = some r) : r ∈ rs := by
  induction rs with
  | nil => cases h
  | cons a rs ih =>
    rw [rangeOf?] at h
    split at h
    · cases h
    · split at h
      · obtain rfl := Option.some.inj h
        exact List.mem_cons_self
      · exact List.mem_cons_of_mem a (ih h)

/-- A decimal digit is a word character. -/
theorem isWord_of_isDecimal {c : Char} (h : isDecimal c = true) : isWord c = true := by
  rw [isDecimal] at h
  rw [isWord]
  split
  · rename_i hascii
    rw [if_pos hascii] at h
    simp [Char.isAlphanum, h]
  · rename_i hascii
    rw [if_neg hascii] at h
    have key : ∀ r ∈ digitRanges, ∃ w ∈ rangeOf? wordRanges r.1, r.2 ≤ w.2 := by
      decide +kernel
    obtain ⟨r, hr⟩ := Option.isSome_iff_exists.mp h
    obtain ⟨hlo, hhi⟩ := rangeOf?_bounds hr
    obtain ⟨w, hw, hrw⟩ := key r (mem_of_rangeOf? hr)
    rw [inRanges, rangeOf?_within hw hlo (Nat.le_trans hhi hrw)]
    rfl

theorem dropWhile_append_of_stop {p : Char → Bool} {x y : Text} (hx : ∀ c ∈ x, p c = true)
    (hy : ∀ c ∈ y.head?, p c = false) : (x ++ y).dropWhile p = y := by
  rw [List.dropWhile_append_of_pos hx]
  cases y with
  | nil => rfl
  | cons c y => exact List.dropWhile_cons_of_neg (by simp [hy c rfl])

/-- A character that may stand before a decimal number. -/
def Parts (c : Char) : Prop :=
  isWord c = false ∧ c ≠ '.'

theorem parts_of_operator {c : Char} (h : isOperator c = true) : Parts c := by
  simp only [isOperator, List.contains_iff_mem] at h
  have key : ∀ c ∈ ['<', '>', '=', '!', '&', '+', '-'], isWord c = false ∧ c ≠ '.' := by decide
  exact key c h

theorem parts_of_blank {c : Char} (h : isBlank c = true) : Parts c := by
  rcases blank_cases h with rfl | rfl <;> exact ⟨rfl, by decide⟩

theorem isOperator_of_isWord {c : Char} (h : isWord c = true) : isOperator c = false := by
  cases ho : isOperator c with
  | false => rfl
  | true => rw [(parts_of_operator ho).1] at h; cases h

theorem isBlank_of_isWord {c : Char} (h : isWord c = true) : isBlank c = false := by
  cases hb : isBlank c with
  | false => rfl
  | true => rw [(parts_of_blank hb).1] at h; cases h

theorem isWord_of_radixDigit {letter d : Char} (h : radixDigit letter d = true) :
    isWord letter = true ∧ isWord d = true := by
  have hdigit : ∀ {d : Char}, startsRadix.isHexDigit d = true ∨ startsRadix.isOctalDigit d = true →
      isWord d = true := by
    intro d hd
    have key : ∀ c : Char, c.toNat < 0x80 → startsRadix.isHexDigit c = true ∨
        startsRadix.isOctalDigit c = true → isWord c = true := of_ascii (by decide)
    have hbelow : ∀ {x : Char}, d ≤ x → x.toNat < 0x80 → d.toNat < 0x80 :=
      fun hle hx => Nat.lt_of_le_of_lt hle hx
    have hascii : d.toNat < 0x80 := by
      simp only [startsRadix.isHexDigit, startsRadix.isOctalDigit, Char.isDigit, Bool.or_eq_true,
        Bool.and_eq_true, decide_eq_true_eq] at hd
      rcases hd with ((⟨_, h⟩ | ⟨_, h⟩) | ⟨_, h⟩) | ⟨_, h⟩
      · exact hbelow (x := '9') h (by decide)
      · exact hbelow h (by decide)
      · exact hbelow h (by decide)
      · exact hbelow h (by decide)
    exact key d hascii hd
  unfold radixDigit at h
  split at h
  · rename_i hletter
    simp only [Bool.or_eq_true, beq_iff_eq] at hletter
    refine ⟨?_, hdigit (.inl h)⟩
    rcases hletter with rfl | rfl <;> rfl
  · split at h
    · rename_i hletter
      simp only [Bool.or_eq_true, beq_iff_eq] at hletter
      refine ⟨?_, hdigit (.inr h)⟩
      rcases hletter with rfl | rfl <;> rfl
    · cases h

/-! ## The text so far -/

/-- A text with a cut at operators set behind it, both last character first. -/
def setBehind (back : Text) (w : Weave) : Text :=
  setOperators (w.head.reverse ++ back) w.rest

/-- A text with its operators set, last character first, before the blanks at its end go. -/
def soFar (t : Text) : Text :=
  setBehind [] (operatorPattern.weave t)

theorem spaceOperators_soFar (t : Text) :
    spaceOperators t = ((soFar t).dropWhile isBlank).reverse := by
  rw [soFar, setBehind, List.append_nil]
  rfl

theorem bare_soFar (t : Text) : bare (soFar t) = (bare t).reverse := by
  have hout := bare_spaceOperators t
  rw [spaceOperators_soFar, bare_reverse, bare_dropWhile] at hout
  rw [← hout, List.reverse_reverse]

theorem setOperators_append (back : Text) (xs ys : List (Text × Text)) :
    setOperators back (xs ++ ys) = setOperators (setOperators back xs) ys := by
  induction xs generalizing back with
  | nil => rfl
  | cons p xs ih => rw [List.cons_append, setOperators, setOperators, ih]

/-- An operator of one character and the plain text behind it, set behind a text. -/
theorem soFar_operator {op : Char} (hop : op ∈ ['&', '+', '-']) {n : Text} (hne : n ≠ [])
    (hn : ∀ c ∈ n, isWord c = true) (x post : Text) {how : Setting}
    (hhow : settingOf (soFar x) [op] (n ++ (operatorPattern.weave post).head) = how) :
    soFar (x ++ (op :: (n ++ post))) =
      setBehind (n.reverse ++ (how.behind ++ (op :: how.ahead (soFar x))))
        (operatorPattern.weave post) := by
  have hplain : ∀ c ∈ n, isOperator c = false := fun c hc => isOperator_of_isWord (hn c hc)
  have hblank : isBlank op = false := by
    have key : ∀ op ∈ ['&', '+', '-'], isBlank op = false := by decide
    exact key op hop
  have hdetached : Detached (op :: (n ++ post)) := by
    intro c hc
    rw [dropBlanks_plain hblank] at hc
    obtain rfl : op = c := by simpa using hc
    have key : ∀ op ∈ ['&', '+', '-'], op ∉ ['<', '>', '='] := by decide
    exact key op hop
  have halone : dropOperator? ([op] ++ (n ++ post)) = some (n ++ post) := by
    simp only [List.mem_cons, List.not_mem_nil, or_false] at hop
    rcases hop with rfl | rfl | rfl <;> rfl
  -- nothing before the operator reaches into it, and what is behind it starts its gap
  have hweave : operatorPattern.weave (x ++ (op :: (n ++ post))) =
      ⟨(operatorPattern.weave x).head, (operatorPattern.weave x).rest ++
        ([op], n ++ (operatorPattern.weave post).head) :: (operatorPattern.weave post).rest⟩ := by
    have hhit := weave_operator_hit (List.cons_ne_nil op []) halone
    rw [List.singleton_append] at hhit
    rw [weave_detached x hdetached, hhit, weave_plain_append hplain, ← Weave.append_hits_only]
    rfl
  have hdrop : (n ++ (operatorPattern.weave post).head).dropWhile isBlank =
      n ++ (operatorPattern.weave post).head := by
    obtain ⟨c, n, rfl⟩ := List.exists_cons_of_ne_nil hne
    exact dropBlanks_plain (isBlank_of_isWord (hn c List.mem_cons_self)) _
  have hbare : bare [op] = [op] := bare_plain hblank []
  rw [soFar, hweave, setBehind, setOperators_append, setOperators]
  show setOperators (_ ++ setOperator (soFar x) (bare [op]).reverse
    (settingOf (soFar x) (bare [op]) _)) _ = _
  rw [hbare, hhow, hdrop, setOperator_eq, List.reverse_append, List.append_assoc]
  rfl

theorem startsNumber_of_parts {t : Text} (h : ∀ c ∈ t.head?, Parts c) : startsNumber t = true := by
  cases t with
  | nil => rfl
  | cons c t =>
    obtain ⟨hword, hpoint⟩ := h c rfl
    simp [startsNumber, hword, hpoint]

/-- Behind an operator a number may start. -/
theorem parts_setOperator {hit : Text} (hedged : Edged hit) (back : Text) (how : Setting) :
    ∀ c ∈ (setOperator back (bare hit).reverse how).head?, Parts c := by
  obtain ⟨d, u, hd, hoperator⟩ := hedged.bare.reverse_eq
  have hop : ∀ t : Text, ∀ c ∈ ((bare hit).reverse ++ t).head?, Parts c := by
    intro t c hc
    rw [hd] at hc
    obtain rfl : d = c := by simpa using hc
    exact parts_of_operator hoperator
  rw [setOperator_eq]
  cases how with
  | binary =>
    intro c hc
    obtain rfl : ' ' = c := by simpa [Setting.behind] using hc
    exact parts_of_blank rfl
  | sign => exact hop _
  | exponent => exact hop _

/-- Plain text at the end is set as it is; what stands before it ends as before or with an operator
and its space, so a number may start behind it where one could. -/
theorem setOperators_plain (back : Text) {m : Text} (hm : m.dropWhile isBlank = m) {head : Text}
    {rest : List (Text × Text)} (hrest : ∀ p ∈ rest, Edged p.1)
    (hback : ∀ c ∈ back.head?, Parts c) (hlast : ∀ c ∈ (head ++ follow rest).getLast?, Parts c) :
    ∃ front, setBehind back (Weave.appendRest head rest ⟨m, []⟩) = m.reverse ++ front ∧
      ∀ c ∈ front.head?, Parts c := by
  induction rest generalizing head back with
  | nil =>
    refine ⟨head.reverse ++ back, ?_, ?_⟩
    · simp [Weave.appendRest, Weave.prepend, setBehind, setOperators]
    · intro c hc
      rw [follow, List.flatMap_nil, List.append_nil] at hlast
      rw [List.head?_append, List.head?_reverse] at hc
      cases hend : head.getLast? with
      | none =>
        rw [hend] at hc
        exact hback c hc
      | some d =>
        rw [hend] at hc
        exact hlast c (hend.trans hc)
  | cons p rest ih =>
    obtain ⟨hit, after⟩ := p
    -- blanks behind an operator are dropped, with or without the plain text behind them
    have hafter : (Weave.appendRest after rest ⟨m, []⟩).head.dropWhile isBlank =
          (Weave.appendRest (after.dropWhile isBlank) rest ⟨m, []⟩).head ∧
        (Weave.appendRest after rest ⟨m, []⟩).rest =
          (Weave.appendRest (after.dropWhile isBlank) rest ⟨m, []⟩).rest := by
      cases rest with
      | nil => exact ⟨dropBlanks_front hm after, rfl⟩
      | cons q rest =>
        rw [Weave.appendRest_cons, Weave.appendRest_cons]
        exact ⟨rfl, rfl⟩
    have hend : ∀ c ∈ (after.dropWhile isBlank ++ follow rest).getLast?, Parts c := by
      intro c hc
      have hsplit : head ++ follow ((hit, after) :: rest) =
          (head ++ (hit ++ after.takeWhile isBlank)) ++
            (after.dropWhile isBlank ++ follow rest) := by
        have hafter : after.takeWhile isBlank ++ after.dropWhile isBlank = after :=
          List.takeWhile_append_dropWhile
        simp only [follow, List.flatMap_cons, List.append_assoc]
        rw [← List.append_assoc (after.takeWhile isBlank), hafter]
      apply hlast c
      rw [hsplit, List.getLast?_append, hc]
      rfl
    rw [Weave.appendRest_cons, setBehind, setOperators, hafter.1, hafter.2]
    exact ih _ (fun q hq => hrest q (List.mem_cons_of_mem _ hq))
      (parts_setOperator (hrest _ List.mem_cons_self) _ _) hend

/-- Plain text behind a text from which it is parted is set as it is. -/
theorem soFar_plain {x m : Text} (hplain : ∀ c ∈ m, isOperator c = false)
    (hm : m.dropWhile isBlank = m) (hx : ∀ c ∈ x.getLast?, Parts c) :
    ∃ front, soFar (x ++ m) = m.reverse ++ front ∧ bare front = (bare x).reverse ∧
      ∀ c ∈ front.head?, Parts c := by
  have hdetached : Detached m := by
    intro c hc hop
    rw [hm] at hc
    have hoperator : isOperator c = true := by
      have key : ∀ c ∈ ['<', '>', '='], isOperator c = true := by decide
      exact key c hop
    rw [hplain c (List.mem_of_mem_head? hc)] at hoperator
    cases hoperator
  have hsource : (operatorPattern.weave x).head ++ follow (operatorPattern.weave x).rest = x :=
    Pattern.source_weave operatorPattern x
  obtain ⟨front, hfront, hparts⟩ := setOperators_plain [] hm (edged_hits x)
    (fun c hc => by cases hc) (by rwa [hsource])
  have hsoFar : soFar (x ++ m) = m.reverse ++ front := by
    rw [soFar, weave_detached x hdetached, weave_plain hplain]
    exact hfront
  refine ⟨front, hsoFar, ?_, hparts⟩
  have hbare := bare_soFar (x ++ m)
  rw [hsoFar, bare_append, bare_append, bare_reverse, List.reverse_append] at hbare
  exact List.append_cancel_left hbare

/-! ## Numerals -/

/-- A hexadecimal or octal number, without a mark that closes it. -/
def RadixNumber (lit : Text) : Prop :=
  ∃ letter digits, lit = '&' :: letter :: digits ∧ digits ≠ [] ∧
    ∀ d ∈ digits, radixDigit letter d = true

/-- A decimal number with a signed exponent. -/
def SignedExponent (lit : Text) : Prop :=
  ∃ whole fraction e sign digits, lit = whole ++ (fraction ++ e :: sign :: digits) ∧
    (whole ≠ [] ∧ ∀ d ∈ whole, isDecimal d = true) ∧
    (fraction = [] ∨ ∃ f, fraction = '.' :: f ∧ f ≠ [] ∧ ∀ d ∈ f, isDecimal d = true) ∧
    e ∈ ['e', 'E'] ∧ sign ∈ ['+', '-'] ∧ digits ≠ [] ∧ ∀ d ∈ digits, isDecimal d = true

/-- A part of a text comes out as `out` when operators are set, between what comes out of the text
before it and of the text behind it. -/
def ComesOutAs (out pre lit post : Text) : Prop :=
  ∃ l r, spaceOperators (pre ++ (lit ++ post)) = l ++ (out ++ r) ∧ bare l = bare pre ∧
    bare r = bare post

/-- What is set stays as it is. -/
theorem comesOutAs_of_soFar {out pre lit post front : Text} {w : Weave}
    (hsoFar : soFar (pre ++ (lit ++ post)) = setBehind (out.reverse ++ front) w)
    (hrest : ∀ p ∈ w.rest, Edged p.1) (hout : ∃ c ∈ out.getLast?, isBlank c = false)
    (hlit : bare out = bare lit) (hfront : bare front = (bare pre).reverse) :
    ComesOutAs out pre lit post := by
  have hdrop : (out.reverse ++ front).dropWhile isBlank = out.reverse ++ front := by
    obtain ⟨c, hc, hplain⟩ := hout
    obtain ⟨u, rfl⟩ := List.getLast?_eq_some_iff.mp hc
    rw [List.reverse_concat, List.cons_append, dropBlanks_plain hplain]
  obtain ⟨z, hz⟩ : out.reverse ++ front <:+ soFar (pre ++ (lit ++ post)) := by
    have hsuffix := suffix_setOperators (w.head.reverse ++ (out.reverse ++ front)) hrest
    rw [dropBlanks_front hdrop] at hsuffix
    rw [hsoFar]
    exact (List.suffix_append _ _).trans hsuffix
  have hcode : spaceOperators (pre ++ (lit ++ post)) =
      front.reverse ++ (out ++ (z.dropWhile isBlank).reverse) := by
    rw [spaceOperators_soFar, ← hz, dropBlanks_front hdrop]
    simp
  have hleft : bare front.reverse = bare pre := by
    rw [bare_reverse, hfront, List.reverse_reverse]
  have hbare := bare_spaceOperators (pre ++ (lit ++ post))
  rw [hcode, bare_append, bare_append, bare_append, bare_append, hleft, hlit] at hbare
  exact ⟨_, _, hcode, hleft, List.append_cancel_left (List.append_cancel_left hbare)⟩

/-- A number is seen as such if no word character follows it. -/
theorem startsRadix_number {letter : Char} {digits post : Text} (hne : digits ≠ [])
    (hdigits : ∀ d ∈ digits, radixDigit letter d = true) (hpost : wordAt post.head? = false) :
    startsRadix (letter :: (digits ++ post)) = true := by
  have hstop : (digits ++ post).dropWhile (radixDigit letter) = post := by
    apply dropWhile_append_of_stop hdigits
    intro c hc
    rw [hc] at hpost
    cases hdigit : radixDigit letter c with
    | false => rfl
    | true => exact absurd hpost (by simp [wordAt, (isWord_of_radixDigit hdigit).2])
  obtain ⟨d, digits, rfl⟩ := List.exists_cons_of_ne_nil hne
  have hfirst : radixDigit letter d = true := hdigits d List.mem_cons_self
  rw [startsRadix_cons, hstop, hpost]
  exact Bool.and_eq_true_iff.mpr ⟨hfirst, rfl⟩

theorem soFar_radix {lit : Text} (hlit : RadixNumber lit) (pre : Text) {post : Text}
    (hpost : wordAt post.head? = false) :
    soFar (pre ++ (lit ++ post)) =
      setBehind (lit.reverse ++ Setting.sign.ahead (soFar pre)) (operatorPattern.weave post) := by
  obtain ⟨letter, digits, rfl, hne, hdigits⟩ := hlit
  obtain ⟨d, hd⟩ := List.exists_mem_of_ne_nil digits hne
  have hword : ∀ c ∈ letter :: digits, isWord c = true := by
    intro c hc
    rcases List.mem_cons.mp hc with rfl | hc
    · exact (isWord_of_radixDigit (hdigits d hd)).1
    · exact (isWord_of_radixDigit (hdigits c hc)).2
  have hgap : wordAt (operatorPattern.weave post).head.head? = false := by
    have hsource : (operatorPattern.weave post).head ++ follow (operatorPattern.weave post).rest =
        post := Pattern.source_weave operatorPattern post
    cases hhead : (operatorPattern.weave post).head with
    | nil => rfl
    | cons c gap =>
      rw [← hsource, hhead] at hpost
      exact hpost
  have hset : settingOf (soFar pre) ['&'] (letter :: digits ++ (operatorPattern.weave post).head) =
      .sign := by
    rw [settingOf_ampersand, List.cons_append, startsRadix_number hne hdigits hgap, if_pos rfl]
  have hampersand : '&' ∈ ['&', '+', '-'] := List.mem_cons_self
  have hlit : ('&' :: letter :: digits).reverse = (letter :: digits).reverse ++ ['&'] :=
    List.reverse_cons
  have hstep := soFar_operator hampersand (List.cons_ne_nil letter digits) hword pre post hset
  rw [List.cons_append, hstep, hlit, List.append_assoc]
  rfl

theorem bare_ahead (how : Setting) (t : Text) : bare (how.ahead (soFar t)) = (bare t).reverse := by
  rw [← bare_dropWhile, Setting.dropBlanks_ahead, bare_dropWhile, bare_soFar]

theorem RadixNumber.last {lit : Text} (h : RadixNumber lit) :
    ∃ c ∈ lit.getLast?, isWord c = true := by
  obtain ⟨letter, digits, rfl, hne, hdigits⟩ := h
  obtain ⟨d, hd⟩ := Option.isSome_iff_exists.mp (List.getLast?_isSome.mpr hne)
  refine ⟨d, ?_, (isWord_of_radixDigit (hdigits d (List.mem_of_getLast? hd))).2⟩
  rw [List.getLast?_cons, List.getLast?_cons, hd]
  rfl

/-- Nothing is set within a hexadecimal or octal number. -/
theorem radix_whole {lit : Text} (hlit : RadixNumber lit) (pre : Text) {post : Text}
    (hpost : wordAt post.head? = false) : ComesOutAs lit pre lit post := by
  obtain ⟨c, hc, hword⟩ := hlit.last
  exact comesOutAs_of_soFar (soFar_radix hlit pre hpost) (edged_hits post)
    ⟨c, hc, isBlank_of_isWord hword⟩ rfl (bare_ahead _ pre)

theorem ahead_word {how : Setting} (hne : how ≠ .exponent) {back : Text} {c : Char}
    (hback : back.head? = some c) (hc : isWord c = true) : how.ahead back = ' ' :: back := by
  obtain ⟨back, rfl⟩ := List.head?_eq_some_iff.mp hback
  have hbracket : c ≠ '(' := by
    rintro rfl
    exact absurd hc (by decide)
  rw [Setting.ahead, if_neg hne, dropBlanks_plain (isBlank_of_isWord hc), List.head?_cons]
  cases how with
  | exponent => exact absurd rfl hne
  | sign => rw [Setting.before, if_neg (by simpa using hbracket)]; rfl
  | binary => rfl

/-- The mark that closes a number is set off from it. -/
theorem radix_mark {lit : Text} (hlit : RadixNumber lit) (pre post : Text) :
    ComesOutAs (lit ++ [' ', '&']) pre (lit ++ ['&']) post := by
  have hmatch : dropOperator? (['&'] ++ post) = some post := rfl
  have hweave : operatorPattern.weave ('&' :: post) = (operatorPattern.weave post).pushHit ['&'] :=
    weave_operator_hit (List.cons_ne_nil '&' []) hmatch
  have hword : wordAt ('&' :: post).head? = false := rfl
  have hnumber := soFar_radix hlit pre hword
  rw [hweave] at hnumber
  generalize hfront : Setting.sign.ahead (soFar pre) = front at hnumber
  generalize hhow : settingOf (lit.reverse ++ front) ['&'] (operatorPattern.weave post).head = how
  have hne : how ≠ .exponent := by
    rw [← hhow, settingOf_ampersand]
    split <;> decide
  have hahead : how.ahead (lit.reverse ++ front) = ' ' :: (lit.reverse ++ front) := by
    obtain ⟨c, hc, hword⟩ := hlit.last
    apply ahead_word hne _ hword
    rw [List.head?_append, List.head?_reverse, hc]
    rfl
  -- what decides on the setting of the mark is left open: each puts a space before it
  have hmark : soFar (pre ++ (lit ++ ['&'] ++ post)) =
      setBehind ((lit ++ [' ', '&']).reverse ++ front)
        ⟨how.behind ++ (operatorPattern.weave post).head.dropWhile isBlank,
          (operatorPattern.weave post).rest⟩ := by
    have hcode : pre ++ (lit ++ ['&'] ++ post) = pre ++ (lit ++ '&' :: post) := by simp
    have hset : ∀ gap : Text,
        (how.behind ++ gap).reverse ++ ((lit ++ [' ', '&']).reverse ++ front) =
          gap.reverse ++ setOperator (lit.reverse ++ front) ['&'] how := by
      intro gap
      rw [setOperator_eq, hahead, List.reverse_append, Setting.reverse_behind, List.append_assoc,
        List.reverse_append]
      rfl
    rw [hcode, hnumber, setBehind, setBehind, hset, ← hhow]
    rfl
  refine comesOutAs_of_soFar hmark (edged_hits post) ⟨'&', ?_, by decide⟩ ?_ ?_
  · rw [List.getLast?_append]
    rfl
  · rw [bare_append, bare_append]
    rfl
  · rw [← hfront, bare_ahead]

/-- Digits and the letter of an exponent end a number where a number may start before the digits, or
before the digits and the point that precede them. -/
theorem endsWithExponent_digits {e : Char} (he : e ∈ ['e', 'E']) {digits back : Text}
    (hdigits : digits ≠ [] ∧ ∀ d ∈ digits, isDecimal d = true)
    (hstop : ∀ c ∈ back.head?, isDecimal c = false)
    (hstart : startsNumber back = true ∨
      ∃ t, back = '.' :: t ∧ startsNumber (t.dropWhile isDecimal) = true) :
    endsWithExponent (e :: (digits.reverse ++ back)) = true := by
  have hdrop : (digits.reverse ++ back).dropWhile isDecimal = back :=
    dropWhile_append_of_stop (fun d hd => hdigits.2 d (List.mem_reverse.mp hd)) hstop
  obtain ⟨d, u, hd⟩ := List.exists_cons_of_ne_nil (List.reverse_ne_nil_iff.mpr hdigits.1)
  have hdigit : isDecimal d = true :=
    hdigits.2 d (List.mem_reverse.mp (by rw [hd]; exact List.mem_cons_self))
  have hletter : ∀ t, skipFinalNewline (e :: t) = e :: t ∧ (e == 'e' || e == 'E') = true := by
    simp only [List.mem_cons, List.not_mem_nil, or_false] at he
    rcases he with rfl | rfl <;> exact fun t => ⟨rfl, rfl⟩
  rw [hd, List.cons_append] at hdrop ⊢
  rw [endsWithExponent, (hletter _).1]
  simp only [(hletter []).2, hdigit, hdrop, Bool.true_and]
  rcases hstart with hstart | ⟨t, rfl, hstart⟩
  · split
    · cases hstart
    · exact hstart
  · exact hstart

/-- A number up to the sign of its exponent is seen as such. -/
theorem endsWithExponent_number {whole fraction : Text} {e : Char}
    (hwhole : whole ≠ [] ∧ ∀ d ∈ whole, isDecimal d = true)
    (hfraction : fraction = [] ∨ ∃ f, fraction = '.' :: f ∧ f ≠ [] ∧ ∀ d ∈ f, isDecimal d = true)
    (he : e ∈ ['e', 'E']) {front : Text} (hfront : ∀ c ∈ front.head?, Parts c) :
    endsWithExponent ((whole ++ (fraction ++ [e])).reverse ++ front) = true := by
  have hstop : ∀ c ∈ front.head?, isDecimal c = false := by
    intro c hc
    cases hdigit : isDecimal c with
    | false => rfl
    | true => exact absurd (hfront c hc).1 (by simp [isWord_of_isDecimal hdigit])
  have hstart := startsNumber_of_parts hfront
  rcases hfraction with rfl | ⟨f, rfl, hfraction⟩
  · rw [List.nil_append, List.reverse_concat, List.cons_append]
    exact endsWithExponent_digits he hwhole hstop (.inl hstart)
  · have hreverse : (whole ++ ('.' :: f ++ [e])).reverse ++ front =
        e :: (f.reverse ++ '.' :: (whole.reverse ++ front)) := by simp
    rw [hreverse]
    have hpoint : ∀ c ∈ ('.' :: (whole.reverse ++ front)).head?, isDecimal c = false := by
      intro c hc
      obtain rfl : '.' = c := by simpa using hc
      rfl
    refine endsWithExponent_digits he hfraction hpoint (.inr ⟨whole.reverse ++ front, rfl, ?_⟩)
    rwa [dropWhile_append_of_stop (fun d hd => hwhole.2 d (List.mem_reverse.mp hd)) hstop]

/-- Nothing is set within a decimal number with a signed exponent. -/
theorem exponent_whole {lit : Text} (hlit : SignedExponent lit) {pre : Text} (post : Text)
    (hpre : ∀ c ∈ pre.getLast?, Parts c) : ComesOutAs lit pre lit post := by
  obtain ⟨whole, fraction, e, sign, digits, rfl, hwhole, hfraction, he, hsign, hne, hdigits⟩ := hlit
  have hdecimal : ∀ d, isDecimal d = true → isOperator d = false := fun d hd =>
    isOperator_of_isWord (isWord_of_isDecimal hd)
  have hplain : ∀ c ∈ whole ++ (fraction ++ [e]), isOperator c = false := by
    intro c hc
    simp only [List.mem_append, List.mem_singleton] at hc
    rcases hc with hc | hc | rfl
    · exact hdecimal c (hwhole.2 c hc)
    · rcases hfraction with rfl | ⟨f, rfl, _, hf⟩
      · cases hc
      · rcases List.mem_cons.mp hc with rfl | hc
        · rfl
        · exact hdecimal c (hf c hc)
    · have key : ∀ e ∈ ['e', 'E'], isOperator e = false := by decide
      exact key c he
  have hstart : (whole ++ (fraction ++ [e])).dropWhile isBlank = whole ++ (fraction ++ [e]) := by
    obtain ⟨d, whole, rfl⟩ := List.exists_cons_of_ne_nil hwhole.1
    exact dropBlanks_plain
      (isBlank_of_isWord (isWord_of_isDecimal (hwhole.2 d List.mem_cons_self))) _
  obtain ⟨front, hfront, hbare, hparts⟩ := soFar_plain hplain hstart hpre
  have hset : settingOf (soFar (pre ++ (whole ++ (fraction ++ [e])))) [sign]
      (digits ++ (operatorPattern.weave post).head) = .exponent := by
    have key : ∀ sign ∈ ['+', '-'], isPlusOrMinus [sign] = true := by decide
    rw [settingOf_exponent, hfront]
    exact ⟨key sign hsign, endsWithExponent_number hwhole hfraction he hparts⟩
  have hstep := soFar_operator (List.mem_cons_of_mem '&' hsign) hne
    (fun d hd => isWord_of_isDecimal (hdigits d hd)) _ post hset
  have hcode : pre ++ (whole ++ (fraction ++ e :: sign :: digits) ++ post) =
      pre ++ (whole ++ (fraction ++ [e])) ++ sign :: (digits ++ post) := by simp
  have hset : digits.reverse ++ (Setting.exponent.behind ++
      sign :: Setting.exponent.ahead ((whole ++ (fraction ++ [e])).reverse ++ front)) =
        (whole ++ (fraction ++ e :: sign :: digits)).reverse ++ front := by
    simp [Setting.behind, Setting.ahead]
  rw [hfront, hset, ← hcode] at hstep
  obtain ⟨d, hd⟩ := Option.isSome_iff_exists.mp (List.getLast?_isSome.mpr hne)
  refine comesOutAs_of_soFar hstep (edged_hits post) ⟨d, ?_, ?_⟩ rfl hbare
  · simp [List.getLast?_append, List.getLast?_cons, hd]
  · exact isBlank_of_isWord (isWord_of_isDecimal (hdigits d (List.mem_of_getLast? hd)))

/-- Nothing is set within a hexadecimal or octal number that no word character follows, nor within a
decimal number with a signed exponent that no word character and no point precedes. The mark that
may close a hexadecimal or octal number is set off from it by a space, whatever follows. -/
theorem numerals_come_out_whole (pre lit post : Text) :
    (RadixNumber lit → wordAt post.head? = false → ComesOutAs lit pre lit post) ∧
      (SignedExponent lit → (∀ c ∈ pre.getLast?, Parts c) → ComesOutAs lit pre lit post) ∧
      (RadixNumber lit → ComesOutAs (lit ++ [' ', '&']) pre (lit ++ ['&']) post) :=
  ⟨fun hlit hpost => radix_whole hlit pre hpost, fun hlit hpre => exponent_whole hlit post hpre,
    fun hlit => radix_mark hlit pre post⟩

theorem numerals_in_sum :
    ComesOutAs "&HFF".toList "a=".toList "&HFF".toList "&b".toList ∧
      ComesOutAs "1.5e-3".toList "a=".toList "1.5e-3".toList "-b".toList ∧
      ComesOutAs "&HFF &".toList "a=".toList "&HFF&".toList "".toList := by
  have hradix : RadixNumber "&HFF".toList :=
    ⟨'H', "FF".toList, rfl, by decide, by decide⟩
  have hdecimal : SignedExponent "1.5e-3".toList :=
    ⟨"1".toList, ".5".toList, 'e', '-', "3".toList, rfl, by decide,
      .inr ⟨"5".toList, rfl, by decide, by decide⟩, by decide, by decide, by decide, by decide⟩
  have hparts : ∀ c ∈ "a=".toList.getLast?, Parts c := by
    intro c hc
    obtain rfl : '=' = c := by simpa using hc
    exact ⟨by decide, by decide⟩
  exact ⟨(numerals_come_out_whole "a=".toList "&HFF".toList "&b".toList).1 hradix (by decide),
    (numerals_come_out_whole "a=".toList "1.5e-3".toList "-b".toList).2.1 hdecimal hparts,
    (numerals_come_out_whole "a=".toList "&HFF".toList "".toList).2.2 hradix⟩

/-- A number with its closing mark does not come out whole. -/
theorem closing_mark_set_off :
    spaceOperators "x = &HFF&".toList = "x = &HFF &".toList ∧
      hasPart "&HFF&".toList (spaceOperators "x = &HFF&".toList) = false := by
  decide

end VbTidy
