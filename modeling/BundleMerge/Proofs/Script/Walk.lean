import BundleMerge.Script.Cursor

/-! The order in which a walk visits the trees in a tree. A cursor knows what is still to be
visited: what is in its own tree, and what stands to the right of the trees around it. -/
namespace BundleMerge.Script

/-- A tree with the number of characters before it. -/
structure Visit where
  start : Nat
  tree : Tree

namespace Tree

mutual

/-- The trees in a tree with the places where they start, each before its children and from left
to right. -/
def visitsFrom (start : Nat) : Tree → List Visit
  | .leaf k lead lexeme => [⟨start, .leaf k lead lexeme⟩]
  | .node k children => ⟨start, .node k children⟩ :: visitsFromAll start children

def visitsFromAll (start : Nat) : List Tree → List Visit
  | [] => []
  | t :: ts => visitsFrom start t ++ visitsFromAll (start + t.width) ts

end

mutual

theorem length_visitsFrom (start : Nat) : (t : Tree) → (t.visitsFrom start).length = t.size
  | .leaf .. => rfl
  | .node k children => by
    rw [visitsFrom, List.length_cons, length_visitsFromAll start children, size]

theorem length_visitsFromAll (start : Nat) :
    (ts : List Tree) → (visitsFromAll start ts).length = sizeAll ts
  | [] => rfl
  | t :: ts => by
    rw [visitsFromAll, List.length_append, length_visitsFrom start t,
      length_visitsFromAll (start + t.width) ts, sizeAll]

end

mutual

theorem map_tree_visitsFrom (start : Nat) :
    (t : Tree) → (t.visitsFrom start).map (·.tree) = t.preorder
  | .leaf .. => rfl
  | .node k children => by
    rw [visitsFrom, List.map_cons, map_tree_visitsFromAll start children, preorder]

theorem map_tree_visitsFromAll (start : Nat) :
    (ts : List Tree) → (visitsFromAll start ts).map (·.tree) = preorderAll ts
  | [] => rfl
  | t :: ts => by
    rw [visitsFromAll, List.map_append, map_tree_visitsFrom start t,
      map_tree_visitsFromAll (start + t.width) ts, preorderAll]

end

end Tree

/-- What stands to the right of the trees around a place, the innermost first. -/
def pending (levels : List Level) : List Visit :=
  levels.flatMap fun l => Tree.visitsFromAll (l.start + l.tree.width) l.rights

namespace Cursor

def visit (c : Cursor) : Visit := ⟨c.level.start, c.level.tree⟩

/-- What is visited from a place on. -/
def ahead (c : Cursor) : List Visit :=
  c.level.tree.visitsFrom c.level.start ++ pending (c.level :: c.above)

/-- To climb is to skip levels with nothing to the right of them. -/
theorem pending_climb (c : Cursor) : pending (c.level :: c.above) = c.climb.elim [] ahead := by
  fun_induction climb c with
  | case1 start t u us above =>
    simp only [pending, Option.elim, ahead, List.flatMap_cons, Tree.visitsFromAll,
      List.append_assoc]
  | case2 start t => rfl
  | case3 start t l ls ih => exact ih

/-- The place itself is visited first, and then what is visited from the next one on. -/
theorem ahead_eq (c : Cursor) : c.ahead = c.visit :: c.next?.elim [] ahead := by
  obtain ⟨⟨start, t, rights⟩, above⟩ := c
  have up := pending_climb ⟨⟨start, t, rights⟩, above⟩
  cases t with
  | leaf k lead lexeme =>
    simp only [next?, firstChild?, Tree.children, ahead, visit, Tree.visitsFrom, ← up]
    rfl
  | node k children =>
    cases children with
    | nil =>
      simp only [next?, firstChild?, Tree.children, ahead, visit, Tree.visitsFrom,
        Tree.visitsFromAll, ← up]
      rfl
    | cons u us =>
      simp only [next?, firstChild?, Tree.children, ahead, visit, Tree.visitsFrom,
        Tree.visitsFromAll, Option.elim, pending, List.flatMap_cons, List.append_assoc,
        List.cons_append]

theorem walk_visits {c : Cursor} {fuel : Nat} (enough : c.ahead.length ≤ fuel) :
    (c.walk fuel).map visit = c.ahead := by
  induction fuel generalizing c with
  | zero =>
    rw [ahead_eq, List.length_cons] at enough
    omega
  | succ fuel ih =>
    rw [ahead_eq] at enough ⊢
    rw [walk, List.map_cons]
    cases next : c.next? with
    | none => rfl
    | some d =>
      rw [next, Option.elim, List.length_cons] at enough
      exact congrArg (c.visit :: ·) (ih (by omega))

end Cursor

/-- A walk through a tree visits the trees in it once each and in order. -/
theorem visits_eq (t : Tree) : (visits t).map Cursor.visit = t.visitsFrom 0 := by
  have whole : (Cursor.root t).ahead = t.visitsFrom 0 := by
    simp [Cursor.ahead, Cursor.root, pending, Tree.visitsFromAll]
  rw [← whole]
  refine Cursor.walk_visits (Nat.le_of_eq ?_)
  rw [whole, Tree.length_visitsFrom]

end BundleMerge.Script
