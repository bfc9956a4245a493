import BundleMerge.Script.Cursor
import BundleMerge.Script.Parse

/-! Renaming of functions where they are called by their bare name. Everything else in a script
is kept as it is. -/
namespace BundleMerge.Script

structure Renaming where
  callee : String
  replacement : String
  deriving Repr, DecidableEq

structure Edit where
  start : Nat
  stop : Nat
  replacement : List Char
  deriving Repr, DecidableEq

structure Renamed where
  text : String
  count : Nat
  deriving Repr, DecidableEq

/-- The name by which a tree calls a function, with the blanks before it. -/
def Tree.calledName? : Tree → Option (List Char × List Char)
  | .node .call (.leaf .name lead lexeme :: _) => some (lead, lexeme)
  | _ => none

def replacement? (rules : List Renaming) (name : List Char) : Option (List Char) :=
  (rules.find? fun r => r.callee.toList = name).map (·.replacement.toList)

/-- The edit that the rules ask for at a place. -/
def edit? (rules : List Renaming) (c : Cursor) : Option Edit :=
  match c.level.tree.calledName? with
  | none => none
  | some (lead, name) =>
    let start := c.level.start + lead.length
    (replacement? rules name).map fun r => ⟨start, start + name.length, r⟩

def edits (rules : List Renaming) (t : Tree) : List Edit :=
  (visits t).filterMap (edit? rules)

/-- The text with its edits made, from the character `position` on. -/
def splice (position : Nat) : List Edit → List Char → List Char
  | [], cs => cs
  | e :: es, cs =>
    cs.take (e.start - position) ++ e.replacement ++
      splice e.stop es (cs.drop (e.stop - position))

/-- Renames the calls in a script, if the script is well formed. -/
def rename (rules : List Renaming) (script : String) : Option Renamed :=
  (parse script.toList).map fun t =>
    let es := edits rules t
    ⟨.ofList (splice 0 es script.toList), es.length⟩

end BundleMerge.Script
