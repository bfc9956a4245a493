import BundleMerge.Script.Tree

/-! A place in a tree, from which one moves to the first child, to the next sibling or back to
the parent. Moving on from the root until there is nowhere to go visits every tree once. -/
namespace BundleMerge.Script

namespace Tree

mutual

def size : Tree → Nat
  | .leaf .. => 1
  | .node _ children => sizeAll children + 1

def sizeAll : List Tree → Nat
  | [] => 0
  | t :: ts => size t + sizeAll ts

end

mutual

def width : Tree → Nat
  | .leaf _ lead lexeme => lead.length + lexeme.length
  | .node _ children => widthAll children

def widthAll : List Tree → Nat
  | [] => 0
  | t :: ts => width t + widthAll ts

end

end Tree

/-- A tree with the number of characters before it and the siblings after it. -/
structure Level where
  start : Nat
  tree : Tree
  rights : List Tree

structure Cursor where
  level : Level
  /-- The trees around it, the innermost first. -/
  above : List Level

namespace Cursor

def root (t : Tree) : Cursor := ⟨⟨0, t, []⟩, []⟩

def firstChild? (c : Cursor) : Option Cursor :=
  match c.level.tree.children with
  | [] => none
  | t :: ts => some ⟨⟨c.level.start, t, ts⟩, c.level :: c.above⟩

def nextSibling? (c : Cursor) : Option Cursor :=
  match c.level.rights with
  | [] => none
  | t :: ts => some ⟨⟨c.level.start + c.level.tree.width, t, ts⟩, c.above⟩

def parent? (c : Cursor) : Option Cursor :=
  match c.above with
  | [] => none
  | l :: ls => some ⟨l, ls⟩

/-- The next sibling of the tree, or else of the innermost tree around it that has one. -/
def climb (c : Cursor) : Option Cursor :=
  match c with
  | ⟨⟨start, t, u :: us⟩, above⟩ => some ⟨⟨start + t.width, u, us⟩, above⟩
  | ⟨⟨_, _, []⟩, []⟩ => none
  | ⟨⟨_, _, []⟩, l :: ls⟩ => climb ⟨l, ls⟩
termination_by c.above.length

def next? (c : Cursor) : Option Cursor :=
  match c.firstChild? with
  | some d => some d
  | none => c.climb

/-- The places that are visited from here on, at most so many. -/
def walk : Nat → Cursor → List Cursor
  | 0, _ => []
  | fuel + 1, c =>
    c :: match c.next? with
      | some d => walk fuel d
      | none => []

end Cursor

/-- The places of all trees in a tree, in the order of a walk through it. -/
def visits (t : Tree) : List Cursor :=
  (Cursor.root t).walk t.size

end BundleMerge.Script
