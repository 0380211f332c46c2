import VbTidy.Text.Basic

/-
How complaints about arguments are told to the user. Three kinds have a wording of their own; all
others are told as they are. Only the first line of a complaint is looked at for its kind.
-/
namespace VbTidy

/-- What follows a fixed start on the first line, if anything does. -/
def afterStart? (start t : Text) : Option Text :=
  if start.isPrefixOf t then
    let rest := firstLine (t.drop start.length)
    if rest.isEmpty then none else some rest
  else none

/-- Tries the places of a separator from the last to the first, with a text before it that is not
empty. -/
def atLast {α : Type} (sep : Text) (f : Text → Text → Option α) (before : Text) : Text → Option α
  | [] => none
  | c :: t =>
    (atLast sep f (before ++ [c]) t).or
      (if !before.isEmpty && sep.isPrefixOf (c :: t) then f before ((c :: t).drop sep.length)
      else none)

/-- The parts of a complaint about a choice: the argument, the value and the choices. -/
def choiceParts? (t : Text) : Option (Text × Text × Text) :=
  match afterStart? "argument ".toList t with
  | none => none
  | some t =>
    atLast ": invalid choice: ".toList (fun argument t =>
      atLast " (choose from ".toList (fun value t =>
        atLast [')'] (fun choices _ => some (argument, value, choices)) [] t) [] t) [] t

/-- A complaint in the words for the user. -/
def explain (t : Text) : Text :=
  match afterStart? "the following arguments are required: ".toList t with
  | some names => "缺少必需参数: ".toList ++ names
  | none =>
    match afterStart? "unrecognized arguments: ".toList t with
    | some args => "无法识别的参数: ".toList ++ args
    | none =>
      match choiceParts? t with
      | some (argument, value, choices) =>
        "参数 ".toList ++ argument ++ " 的取值无效: ".toList ++ value ++ "，可选值为 ".toList ++ choices
      | none => t

/-- A complaint with the hint on where to find help. -/
def complaintText (t : Text) : Text :=
  "错误: ".toList ++ explain t ++ "\n提示: 使用 `vbsfmt format --help` 查看完整帮助。\n".toList

end VbTidy
