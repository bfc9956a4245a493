/-! Syntax trees that keep the whole text. A leaf holds a lexeme and the blanks and comments
before it, so the leaves of a tree, read from left to right, spell the script it was read from. -/
namespace BundleMerge.Script

inductive LeafKind where
  /-- Punctuation, and words with a meaning of their own. -/
  | mark
  | name
  /-- A literal, or a stretch of one. -/
  | literal
  /-- Blanks and comments with nothing after them. -/
  | gap
  deriving Repr, DecidableEq

inductive Kind where
  | program
  | statement
  | block
  | function
  | classDef
  | member
  | subscript
  | call
  | update
  | unary
  | binary
  | ternary
  | assign
  | amend
  | arrow
  | new
  | template
  | parens
  | arguments
  | object
  | pair
  | method
  | initialized
  | array
  | spread
  | element
  | decorator
  deriving Repr, DecidableEq

inductive Tree where
  | leaf (kind : LeafKind) (lead lexeme : List Char)
  | node (kind : Kind) (children : List Tree)

namespace Tree

instance : Inhabited Tree := ⟨.leaf .gap [] []⟩

mutual

/-- Equality of trees, part by part. -/
def decEq : (t u : Tree) → Decidable (t = u)
  | .leaf k lead lexeme, .leaf k' lead' lexeme' =>
    decidable_of_iff (k = k' ∧ lead = lead' ∧ lexeme = lexeme') (by simp)
  | .node k ts, .node k' us =>
    match decEqAll ts us with
    | isTrue same => decidable_of_iff (k = k') (by simp [same])
    | isFalse other => isFalse (by simp [other])
  | .leaf .., .node .. => isFalse nofun
  | .node .., .leaf .. => isFalse nofun

def decEqAll : (ts us : List Tree) → Decidable (ts = us)
  | [], [] => isTrue rfl
  | t :: ts, u :: us =>
    match decEq t u, decEqAll ts us with
    | isTrue first, isTrue rest => isTrue (by rw [first, rest])
    | isFalse first, _ => isFalse (by simp [first])
    | _, isFalse rest => isFalse (by simp [rest])
  | [], _ :: _ => isFalse nofun
  | _ :: _, [] => isFalse nofun

end

instance : DecidableEq Tree := decEq

mutual

def text : Tree → List Char
  | .leaf _ lead lexeme => lead ++ lexeme
  | .node _ children => textAll children

def textAll : List Tree → List Char
  | [] => []
  | t :: ts => text t ++ textAll ts

end

mutual

/-- The tree and those below it, each before its children and from left to right. -/
def preorder : Tree → List Tree
  | .leaf k lead lexeme => [.leaf k lead lexeme]
  | .node k children => .node k children :: preorderAll children

def preorderAll : List Tree → List Tree
  | [] => []
  | t :: ts => preorder t ++ preorderAll ts

end

def name? : Tree → Option (List Char)
  | .leaf .name _ lexeme => some lexeme
  | _ => none

def hasKind (t : Tree) (k : Kind) : Bool :=
  match t with
  | .node k' _ => k' = k
  | .leaf .. => false

def children : Tree → List Tree
  | .leaf .. => []
  | .node _ children => children

def isMark (t : Tree) (s : String) : Bool :=
  match t with
  | .leaf .mark _ lexeme => lexeme = s.toList
  | _ => false

end Tree
end BundleMerge.Script
