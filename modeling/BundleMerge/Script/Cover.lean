import BundleMerge.Script.Tree

/-! Brackets whose meaning shows only after they are closed. What is read as parentheses, a list
or an object may turn out to be the parameters of a function or the target of an assignment, so
it is read as something that covers both, and checked once it is known what it is. -/
namespace BundleMerge.Script.Tree

/-- Whether items between brackets are parted by commas, with none missing. `item` says whether
an item may come next. -/
def parted (item : Bool) : List Tree → Bool
  | [] => true
  | t :: ts => if t.isMark "," then !item && parted true ts else item && parted false ts

/-- What stands between the brackets of a list. -/
def inner (ts : List Tree) : List Tree :=
  (ts.drop 1).dropLast

def isGroup (ts : List Tree) : Bool :=
  match (inner ts).getLast? with
  | none => false
  | some last => !last.isMark "," && !ts.any (·.hasKind .spread)

mutual

/-- Whether a tree is an expression, and holds nothing that only a pattern may hold. -/
def settled : Tree → Bool
  | .leaf .. => true
  | .node .initialized _ => false
  | .node .parens ts => isGroup ts && settledAll ts
  | .node .object ts | .node .array ts | .node .spread ts | .node .pair ts
  | .node .arguments ts => settledAll ts
  | .node .. => true

def settledAll : List Tree → Bool
  | [] => true
  | t :: ts => settled t && settledAll ts

end

mutual

def isTarget : Tree → Bool
  | .leaf .name .. => true
  | .leaf .mark _ lexeme => lexeme = "undefined".toList
  | .node .member _ | .node .subscript _ => true
  | .node .array ts => areTargets ts
  | .node .object ts => arePropertyTargets ts
  | _ => false

/-- Whether each item of a list is a mark, a target, or a target with a default. -/
def areTargets : List Tree → Bool
  | [] => true
  | .leaf .mark _ lexeme :: ts =>
    ["[", "]", "(", ")", ",", "undefined"].any (·.toList = lexeme) && areTargets ts
  | .node .assign (t :: _) :: ts => isTarget t && areTargets ts
  | .node .spread [_, t] :: ts => isTarget t && areTargets ts
  | t :: ts => isTarget t && areTargets ts

def arePropertyTargets : List Tree → Bool
  | [] => true
  | .leaf .mark .. :: ts | .leaf .name .. :: ts | .node .initialized _ :: ts =>
    arePropertyTargets ts
  | .node .pair ps :: ts => isLastTarget ps && arePropertyTargets ts
  | .node .spread [_, t] :: ts => isTarget t && arePropertyTargets ts
  | _ => false

/-- Whether the last of some trees is a target, or a target with a default. -/
def isLastTarget : List Tree → Bool
  | [] => false
  | [.node .assign (t :: _)] => isTarget t
  | [t] => isTarget t
  | _ :: ts => isLastTarget ts

end

def areParameters (ts : List Tree) : Bool :=
  parted true (inner ts) && areTargets ts

def isParameters (t : Tree) : Bool :=
  match t with
  | .node .parens ts => areParameters ts
  | _ => false

/-- What may stand before the arrow of a function. -/
def isArrowHead (t : Tree) : Bool :=
  t.name?.isSome || isParameters t

/-- What `=` may follow: parentheses too, if they hold an expression. -/
def isAssignable (t : Tree) : Bool :=
  match t with
  | .node .parens _ => settled t
  | _ => isTarget t

/-- What an operator such as `+=` may follow. -/
def isAmendable (t : Tree) : Bool :=
  match t with
  | .node .parens _ => settled t
  | .node .member _ | .node .subscript _ => true
  | _ => t.name?.isSome

def isPattern (t : Tree) : Bool :=
  (t.hasKind .array || t.hasKind .object) && isTarget t

def afterValue : List Tree → Bool
  | t :: _ => settled t
  | [] => false

/-- Whether an expression comes first that an optional call may follow. -/
def afterPrimary : List Tree → Bool
  | t :: _ => settled t && !t.hasKind .new && !t.hasKind .update
  | [] => false

/-- Whether an expression comes first that a template may follow. -/
def afterTag : List Tree → Bool
  | t :: _ => settled t && !t.hasKind .update
  | [] => false

/-- Whether a call is one, of an expression with expressions as arguments. -/
def isCall : List Tree → Bool
  | t :: ts => settled t && settledAll ts
  | [] => false

def afterArrowHead : List Tree → Bool
  | t :: _ => isArrowHead t
  | [] => false

def afterAssignable : List Tree → Bool
  | t :: _ => isAssignable t
  | [] => false

def afterAmendable : List Tree → Bool
  | t :: _ => isAmendable t
  | [] => false

end BundleMerge.Script.Tree
