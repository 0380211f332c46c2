import VbTidy.Shelf

/-
Client script blocks. The code between a script tag that names the language and its closing tag is
set between fences, which make it look like code between delimiters with a boundary token outside.
A tag in a string, one after an odd number of double quotes on its line, does not count. Taking the
fences away leaves a line break in place of each and of the blanks and the line break next to it.
-/
namespace VbTidy

/-- The token on the outer side of a fence. -/
def boundaryToken : Text :=
  tokenOf "clientscript".toList

/-- The fence before the code of a block. -/
def openFence : Text :=
  boundaryToken ++ ['<', '%']

/-- The fence after the code of a block. -/
def closeFence : Text :=
  ['%', '>'] ++ boundaryToken

/-- Whether a word occurs in any letter case. -/
def hasWord (word : Text) : Text → Bool
  | [] => word.isEmpty
  | c :: t => (dropWord? word (c :: t)).isSome || hasWord word t

/-- What is left after a tag that opens a script block and names its language. -/
def dropOpenTag? : Text → Option Text
  | '<' :: t =>
    match dropWord? "script".toList (t.dropWhile isSpace) with
    | none => none
    | some rest =>
      if wordAt rest.head? then none
      else
        match rest.dropWhile (· != '>') with
        | [] => none
        | _ :: after =>
          if hasWord "vbscript".toList (rest.takeWhile (· != '>')) then some after else none
  | _ => none

/-- What is left after a tag that closes a script block. -/
def dropCloseTag? : Text → Option Text
  | '<' :: t =>
    match t.dropWhile isSpace with
    | '/' :: t =>
      match (dropWord? "script".toList (t.dropWhile isSpace)).map (·.dropWhile isSpace) with
      | some ('>' :: after) => some after
      | _ => none
    | _ => none
  | _ => none

/-- A document with the places of its fences. -/
inductive Fenced where
  | text (c : Char)
  | opening
  | closing
deriving Repr, DecidableEq

/-- The written form of one part. -/
def Fenced.written : Fenced → Text
  | text c => [c]
  | opening => openFence
  | closing => closeFence

/-- Whether a double quote is open after a character; a line feed ends a string. -/
def quoteAfter (quoted : Bool) (c : Char) : Bool :=
  if c == '\n' then false else if c == '"' then !quoted else quoted

/-- Finds the places of the fences. `inBlock` says whether a closing tag is looked for, `quoted`
whether a string is open, and `skip` how many characters of a tag are still ahead; after the last
of them an opening fence stands if `due`. -/
def fenceFrom (inBlock quoted due : Bool) : Nat → Text → List Fenced
  | _, [] => []
  | skip + 1, c :: t =>
    .text c :: ((if due && skip == 0 then [.opening] else []) ++
      fenceFrom inBlock (quoteAfter quoted c) due skip t)
  | 0, c :: t =>
    match if inBlock then dropCloseTag? (c :: t) else dropOpenTag? (c :: t) with
    | none => .text c :: fenceFrom inBlock (quoteAfter quoted c) false 0 t
    | some rest =>
      let skip := t.length - rest.length
      if quoted then .text c :: fenceFrom inBlock (quoteAfter quoted c) false skip t
      else if inBlock then
        .closing :: .text c :: fenceFrom false (quoteAfter quoted c) false skip t
      else .text c :: fenceFrom true (quoteAfter quoted c) true skip t

/-- A document with the places of its fences. -/
def fence (t : Text) : List Fenced :=
  fenceFrom false false false 0 t

/-- A document with its fences written into it. -/
def fenceScripts (t : Text) : Text :=
  (fence t).flatMap Fenced.written

/-- What is left after an optional line break, a line feed with or without a carriage return. -/
def dropNewline : Text → Text
  | '\r' :: '\n' :: t => t
  | '\n' :: t => t
  | t => t

/-- What is left after an opening fence with blanks and a line break after it. -/
def dropOpenFence? (t : Text) : Option Text :=
  if openFence.isPrefixOf t then
    some (dropNewline ((t.drop openFence.length).dropWhile isBlank))
  else none

/-- What is left after a closing fence with a line break and blanks before it. -/
def dropCloseFence? (t : Text) : Option Text :=
  let rest := (dropNewline t).dropWhile isBlank
  if closeFence.isPrefixOf rest then some (rest.drop closeFence.length) else none

/-- Takes the fences away and leaves a line break for each. -/
def unfenceScripts (newline t : Text) : Text :=
  let t := (Pattern.ofRest dropOpenFence?).replace (fun _ => newline) t
  (Pattern.ofRest dropCloseFence?).replace (fun _ => newline) t

end VbTidy
