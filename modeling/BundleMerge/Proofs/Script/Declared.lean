import BundleMerge.Proofs.Script.Prospects

/-! The names that a script declares at its top level. -/
namespace BundleMerge.Script

/-- The names that stand right after one of these marks. -/
def namesAfter (marks : List String) : List Tree → List (List Char)
  | [] => []
  | t :: ts =>
    let later := namesAfter marks ts
    match ts.head?.bind Tree.name? with
    | some name => if marks.any t.isMark then name :: later else later
    | none => later

/-- The names that a statement of these parts declares, other than by patterns. -/
def declaredBy : List Tree → List (List Char)
  | [] => []
  | t :: ts =>
    if t.hasKind .decorator || ["export", "default", "async"].any t.isMark then declaredBy ts
    else if ["const", "let", "var"].any t.isMark then
      namesAfter ["const", "let", "var", ","] (t :: ts)
    else if ["function", "class"].any t.isMark then
      namesAfter ["function", "*", "class"] (t :: ts)
    else []

/-- The names that the statements of a script declare. -/
def Tree.declared (t : Tree) : List (List Char) :=
  t.children.flatMap fun u => if u.hasKind .statement then declaredBy u.children else []

section
variable {f : List Char → List Char} {ts : List Tree}

/-- What follows that is no statement declares nothing. -/
theorem Tree.declared_concat {u : Tree} (k : Kind) (other : u.hasKind .statement = false) :
    (node k (ts ++ [u])).declared = (node k ts).declared := by
  simp [declared, children, other]

theorem Tree.marks_mapNames (t : Tree) : (t.mapNames f).isMark = t.isMark := by
  funext s
  rw [← Tree.isMark_shape, Tree.shape_mapNames, Tree.isMark_shape]

theorem Tree.hasKind_mapNames (t : Tree) (k : Kind) : (t.mapNames f).hasKind k = t.hasKind k := by
  rw [← Tree.hasKind_shape, Tree.shape_mapNames, Tree.hasKind_shape]

theorem Tree.name?_mapNames (t : Tree) : (t.mapNames f).name? = t.name?.map f := by
  cases t with
  | leaf k lead lexeme => cases k <;> rfl
  | node k ts => rfl

theorem Tree.children_mapNames (t : Tree) :
    (t.mapNames f).children = t.children.map (·.mapNames f) := by
  cases t with
  | leaf k lead lexeme => cases k <;> rfl
  | node k ts => rw [Tree.mapNames, Tree.mapNamesAll_eq, Tree.children, Tree.children]

theorem namesAfter_mapNames (marks : List String) (ts : List Tree) :
    namesAfter marks (ts.map (·.mapNames f)) = (namesAfter marks ts).map f := by
  induction ts with
  | nil => rfl
  | cons t ts ih =>
    have next : (ts.map (·.mapNames f)).head?.bind Tree.name? =
        (ts.head?.bind Tree.name?).map f := by
      cases ts with
      | nil => rfl
      | cons u us => exact Tree.name?_mapNames u
    rw [List.map_cons, namesAfter, namesAfter, next, ih]
    rw [Tree.marks_mapNames]
    cases ts.head?.bind Tree.name? with
    | none => rfl
    | some name => cases marks.any t.isMark <;> rfl

theorem declaredBy_mapNames :
    declaredBy (ts.map (·.mapNames f)) = (declaredBy ts).map f := by
  induction ts with
  | nil => rfl
  | cons t ts ih =>
    have names := fun marks => namesAfter_mapNames (f := f) marks (t :: ts)
    simp only [List.map_cons] at names
    rw [List.map_cons, declaredBy, declaredBy]
    simp only [Tree.marks_mapNames, Tree.hasKind_mapNames, ih, names, apply_ite (List.map f),
      List.map_nil]

/-- With other names in its place, a script declares those. -/
theorem Tree.declared_mapNames (t : Tree) : (t.mapNames f).declared = t.declared.map f := by
  rw [Tree.declared, Tree.declared, Tree.children_mapNames, List.flatMap_map, List.map_flatMap]
  congr 1
  funext u
  rw [Tree.hasKind_mapNames, Tree.children_mapNames, declaredBy_mapNames]
  cases u.hasKind .statement <;> rfl

end

end BundleMerge.Script
