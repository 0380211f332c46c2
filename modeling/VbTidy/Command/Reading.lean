import VbTidy.Text.Quoted
import VbTidy.Text.Word

/-
Reading of argument lists. An argument that starts with a hyphen is an option: by its full name, by
the start of a long name that fits only one, or as short options in one argument, the last of which
may carry its value. All other arguments go to the one positional argument of the command, and what
has no place is left over.
-/
namespace VbTidy

/-- What an option does. -/
inductive OptionShape where
  /-- It is given or not. -/
  | switch
  /-- It is given or not, and reading ends with it. -/
  | final
  /-- It has a text for its value, one of the choices if there are any. -/
  | word (choices : List Text)
  /-- It has a whole number for its value. -/
  | number
deriving Repr, DecidableEq

/-- An option of a command. -/
structure OptionSpec (ι : Type) where
  id : ι
  names : List Text
  shape : OptionShape
  /-- Options that may not be given together with this one. -/
  rivals : List ι := []

/-- What the positional argument takes. -/
inductive Positional where
  /-- The first group of arguments that are no options. -/
  | group
  /-- The first argument that is no option and all that follow it. -/
  | rest
deriving Repr, DecidableEq

/-- The value of an option that was given. -/
inductive OptionValue where
  | given
  /-- Two hyphens stood where the value should be; they are taken away, and nothing is left. -/
  | nothing
  | word (t : Text)
  | number (n : Int)
deriving Repr, DecidableEq

/-- Why reading ends early. -/
inductive Halt (ι : Type) where
  /-- The arguments are wrong. -/
  | complaint (t : Text)
  /-- An option was given that ends reading. -/
  | final (id : ι)
deriving Repr, DecidableEq

/-- What has been read so far. -/
structure Reading (ι : Type) where
  options : List (ι × OptionValue) := []
  positional : Option (List Text) := none
  leftOver : List Text := []

/-- An option found in an argument: the name it was found under and the text attached to it. -/
structure Found (ι : Type) where
  spec : OptionSpec ι
  name : Text
  attached : Option Text

/-- How an argument is read. -/
inductive Role (ι : Type) where
  /-- An argument that is no option. -/
  | plain
  /-- The two hyphens after which no argument is an option. -/
  | dashes
  /-- An option that nobody knows. -/
  | unknown
  | option (f : Found ι)

namespace OptionSpec

variable {ι : Type}

/-- The name of an option in complaints. -/
def label (s : OptionSpec ι) : Text :=
  ['/'].intercalate s.names

/-- A complaint about an option. -/
def complain {α : Type} (s : OptionSpec ι) (t : Text) : Except (Halt ι) α :=
  .error (.complaint ("argument ".toList ++ s.label ++ ": ".toList ++ t))

/-- Whether an option has a value. -/
def takesValue (s : OptionSpec ι) : Bool :=
  match s.shape with
  | .switch | .final => false
  | .word _ | .number => true

end OptionSpec

/-- The digits of a number with single underscores between them. -/
def readDigits : Nat → Text → Option Nat
  | n, [] => some n
  | n, '_' :: c :: t => (decimalValue? c).bind fun d => readDigits (10 * n + d) t
  | n, c :: t => (decimalValue? c).bind fun d => readDigits (10 * n + d) t

/-- White space around a number: that of texts without the separators of ASCII. -/
def isNumberSpace (c : Char) : Bool :=
  isSpace c && !(0x1C ≤ c.toNat && c.toNat ≤ 0x1F)

/-- The greatest number of digits that is read. -/
def mostDigits : Nat :=
  4300

/-- Reads a whole number: an optional sign, digits of any script, white space around it. -/
def readInt (t : Text) : Option Int :=
  match trimBy isNumberSpace t with
  | '-' :: t => (digits t).map fun n => -Int.ofNat n
  | '+' :: t => (digits t).map Int.ofNat
  | t => (digits t).map Int.ofNat
where
  digits : Text → Option Nat
    | [] => none
    | c :: t =>
      if mostDigits < (c :: t).countP isDecimal then none
      else (decimalValue? c).bind fun d => readDigits d t

/-- Whether an argument looks like a negative number; a line feed at its end does not matter. -/
def looksNegative (t : Text) : Bool :=
  match (if ['\n'].isSuffixOf t then t.dropLast else t) with
  | '-' :: t =>
    match t.dropWhile isDecimal with
    | [] => !t.isEmpty
    | '.' :: t => !t.isEmpty && t.all isDecimal
    | _ => false
  | _ => false

/-- Texts with commas between them, each in quotes. -/
def quotedList (ts : List Text) : Text :=
  ", ".toList.intercalate (ts.map quoted)

namespace Reading

variable {ι : Type}

/-- All options under all their names, in order. -/
def allNames (specs : List (OptionSpec ι)) : List (Text × OptionSpec ι) :=
  specs.flatMap fun s => s.names.map fun n => (n, s)

/-- The option of a name. -/
def byName? (specs : List (OptionSpec ι)) (n : Text) : Option (OptionSpec ι) :=
  (allNames specs).lookup n

/-- A text as the part before its first equals sign and the part after it. -/
def splitEquals (t : Text) : Text × Option Text :=
  let before := t.takeWhile (· != '=')
  (before, if before.length < t.length then some (t.drop (before.length + 1)) else none)

/-- The options that an argument may mean if it is no full name: those whose long name starts with
it, or the short option that it starts with. -/
def guesses (specs : List (OptionSpec ι)) (arg : Text) : List (Found ι) :=
  match arg with
  | '-' :: '-' :: _ =>
    let (start, value) := splitEquals arg
    (allNames specs).filterMap fun (n, s) =>
      if start.isPrefixOf n then some ⟨s, n, value⟩ else none
  | _ =>
    (allNames specs).filterMap fun (n, s) =>
      if n == arg.take 2 then some ⟨s, n, some (arg.drop 2)⟩
      else if arg.isPrefixOf n then some ⟨s, n, none⟩
      else none

/-- The role of an argument before the two hyphens. -/
def roleOf (specs : List (OptionSpec ι)) (arg : Text) : Except (Halt ι) (Role ι) :=
  if arg.head? != some '-' then .ok .plain
  else
    match byName? specs arg with
    | some s => .ok (.option ⟨s, arg, none⟩)
    | none =>
      if arg.length == 1 then .ok .plain
      else
        match splitEquals arg with
        | (n, some value) =>
          match byName? specs n with
          | some s => .ok (.option ⟨s, n, some value⟩)
          | none => guessed arg
        | (_, none) => guessed arg
where
  guessed (arg : Text) : Except (Halt ι) (Role ι) :=
    match guesses specs arg with
    | [f] => .ok (.option f)
    | [] => .ok (if looksNegative arg || arg.contains ' ' then .plain else .unknown)
    | fs =>
      .error (.complaint ("ambiguous option: ".toList ++ arg ++ " could match ".toList ++
        ", ".toList.intercalate (fs.map Found.name)))

/-- The roles of all arguments. -/
def roles (specs : List (OptionSpec ι)) : List Text → Except (Halt ι) (List (Text × Role ι))
  | [] => .ok []
  | arg :: args =>
    if arg == ['-', '-'] then .ok ((arg, .dashes) :: args.map fun a => (a, .plain))
    else do
      let role ← roleOf specs arg
      let more ← roles specs args
      return (arg, role) :: more

/-- An option to be taken, with the text of its value if it has one. -/
structure Taking (ι : Type) where
  spec : OptionSpec ι
  value : Option Text

/-- The options in one argument. -/
structure Cluster (ι : Type) where
  /-- The options with all they need. -/
  taken : List (Taking ι)
  /-- An option that needs the next argument for its value. -/
  waiting : Option (OptionSpec ι)

/-- Complains about a text that an option has no use for. -/
def ignored {α : Type} (spec : OptionSpec ι) (t : Text) : Except (Halt ι) α :=
  spec.complain ("ignored explicit argument ".toList ++ quoted t)

/-- Reads a short option and what follows it in its argument: its value, or more short options. -/
def shortOptions (specs : List (OptionSpec ι)) (spec : OptionSpec ι) :
    Text → Except (Halt ι) (Cluster ι)
  | [] => .ok (if spec.takesValue then ⟨[], some spec⟩ else ⟨[⟨spec, none⟩], none⟩)
  | c :: t =>
    if spec.takesValue then .ok ⟨[⟨spec, some (c :: t)⟩], none⟩
    else
      match byName? specs ['-', c] with
      | none => ignored spec (c :: t)
      | some next => do
        let rest ← shortOptions specs next t
        return { rest with taken := ⟨spec, none⟩ :: rest.taken }

/-- Reads the options of one argument. -/
def cluster (specs : List (OptionSpec ι)) (f : Found ι) : Except (Halt ι) (Cluster ι) :=
  match f.attached with
  | none => shortOptions specs f.spec []
  | some t =>
    if f.spec.takesValue then .ok ⟨[⟨f.spec, some t⟩], none⟩
    else if t.isEmpty || ['-', '-'].isPrefixOf f.name then ignored f.spec t
    else shortOptions specs f.spec t

/-- The value of an option from its text. -/
def valueOf (spec : OptionSpec ι) (text : Text) : Except (Halt ι) OptionValue :=
  if !spec.takesValue then .ok .given
  else if text == ['-', '-'] then .ok .nothing
  else
    match spec.shape with
    | .switch | .final => .ok .given
    | .word choices =>
      if choices.isEmpty || choices.contains text then .ok (.word text)
      else spec.complain ("invalid choice: ".toList ++ quoted text ++ " (choose from ".toList ++
        quotedList choices ++ [')'])
    | .number =>
      match readInt text with
      | some n => .ok (.number n)
      | none => spec.complain ("invalid int value: ".toList ++ quoted text)

variable [DecidableEq ι]

/-- Takes one option: reads its value and sees that no rival was given. -/
def take (specs : List (OptionSpec ι)) (r : Reading ι) (t : Taking ι) :
    Except (Halt ι) (Reading ι) := do
  let value ← valueOf t.spec (t.value.getD [])
  match specs.find? fun s => t.spec.rivals.contains s.id && r.options.any (·.1 == s.id) with
  | some rival => t.spec.complain ("not allowed with argument ".toList ++ rival.label)
  | none =>
    if t.spec.shape == .final then .error (.final t.spec.id)
    else return { r with options := r.options ++ [(t.spec.id, value)] }

/-- Takes options one after the other. -/
def takeAll (specs : List (OptionSpec ι)) (r : Reading ι) (ts : List (Taking ι)) :
    Except (Halt ι) (Reading ι) :=
  ts.foldlM (take specs) r

/-- Reads arguments in order. `grouping` says that the last argument read belongs to the group of
the positional argument. -/
def walk (specs : List (OptionSpec ι)) (kind : Positional) (grouping : Bool) (r : Reading ι) :
    List (Text × Role ι) → Except (Halt ι) (Reading ι)
  | [] => .ok r
  | (_, .option f) :: args => do
    let c ← cluster specs f
    match c.waiting, args with
    | none, args => walk specs kind false (← takeAll specs r c.taken) args
    | some s, (value, .plain) :: args =>
      walk specs kind false (← takeAll specs r (c.taken ++ [⟨s, some value⟩])) args
    | some s, _ => s.complain "expected one argument".toList
  | (arg, .unknown) :: args =>
    walk specs kind false { r with leftOver := r.leftOver ++ [arg] } args
  | (arg, role) :: args =>
    match kind, r.positional, role, args with
    | .rest, none, .dashes, [] => .ok { r with leftOver := r.leftOver ++ [arg] }
    | .rest, none, _, _ => .ok { r with positional := some (arg :: args.map Prod.fst) }
    | .group, none, _, _ => walk specs kind true { r with positional := some [arg] } args
    | .group, some group, _, _ =>
      if grouping then walk specs kind true { r with positional := some (group ++ [arg]) } args
      else walk specs kind false { r with leftOver := r.leftOver ++ [arg] } args
    | .rest, some _, _, _ =>
      walk specs kind false { r with leftOver := r.leftOver ++ [arg] } args

end Reading

/-- Reads the arguments of a command. -/
def readArguments {ι : Type} [DecidableEq ι] (specs : List (OptionSpec ι)) (kind : Positional)
    (args : List Text) : Except (Halt ι) (Reading ι) := do
  Reading.walk specs kind false {} (← Reading.roles specs args)

end VbTidy
