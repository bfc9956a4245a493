import BundleMerge.Proofs.Script.Splice

/-! Renaming once is enough. If no rule puts in a name that a rule replaces, then in a renamed tree
no function is called by a name that the rules replace, and renaming the script again finds
nothing to do. -/
namespace BundleMerge.Script

variable {rules : List Renaming} {name : List Char} {t u : Tree} {ts : List Tree} {k : Kind}

/-- No rule puts in a name that a rule replaces. -/
def Fresh (rules : List Renaming) : Prop :=
  ∀ a ∈ rules, ∀ b ∈ rules, a.replacement ≠ b.callee

/-- The renamed script is read as the renamed tree of the script, if the script can be read. The
names that the rules put in decide whether this is so. -/
def KeepsTree (rules : List Renaming) (script : List Char) : Prop :=
  ∀ t ∈ parse script, parse (t.renamed rules).text = some (t.renamed rules)

instance : Decidable (Fresh rules) := inferInstanceAs (Decidable (∀ a ∈ rules, _))

instance {script : List Char} : Decidable (KeepsTree rules script) :=
  inferInstanceAs (Decidable (∀ t ∈ parse script, _))

/-- What stands in the place of a name is replaced by no rule. -/
theorem unlisted_replaced (fresh : Fresh rules) (name : List Char) :
    ∀ r ∈ rules, r.callee.toList ≠ (replacement? rules name).getD name := by
  intro r member same
  cases replaced : replacement? rules name with
  | some put =>
    obtain ⟨before, rule, after, rfl, -, -, puts⟩ := replacement?_eq_some.mp replaced
    rw [replaced, Option.getD_some, ← puts, String.toList_inj] at same
    exact fresh rule (by simp) r member same.symm
  | none =>
    rw [replaced, Option.getD_none] at same
    have listed : (replacement? rules name).isSome = true := by
      rw [replacement?_isSome, List.any_eq_true]
      exact ⟨r, member, decide_eq_true same⟩
    rw [replaced] at listed
    cases listed

namespace Tree

theorem renamedAll_eq (rules : List Renaming) (ts : List Tree) :
    renamedAll rules ts = ts.map (renamed rules) := by
  induction ts with
  | nil => rfl
  | cons t ts ih => rw [renamedAll, ih, List.map_cons]

theorem renamed_node (rules : List Renaming) (k : Kind) (ts : List Tree) :
    ∃ us, (node k ts).renamed rules = .node k us := by
  cases called : (node k ts).calledName? with
  | none => exact ⟨_, renamed_other called⟩
  | some found =>
    obtain ⟨rest, same⟩ := calledName?_eq_some.mp called
    cases same
    exact ⟨_, rfl⟩

theorem calledName?_renamed (other : (node k ts).calledName? = none) :
    (node k (renamedAll rules ts)).calledName? = none := by
  cases called : (node k (renamedAll rules ts)).calledName? with
  | none => rfl
  | some found =>
    -- A call in the renamed tree has been a call by the same name, since leaves stay as they are.
    obtain ⟨us, same⟩ := calledName?_eq_some.mp called
    rw [renamedAll_eq, node.injEq, List.map_eq_cons_iff] at same
    obtain ⟨rfl, callee, rest, rfl, leaf, -⟩ := same
    cases callee with
    | leaf kind lead lexeme =>
      cases leaf
      cases other
    | node k ts =>
      obtain ⟨us, stays⟩ := renamed_node rules k ts
      cases stays.symm.trans leaf

/-- No function is called in a renamed tree by a name that the rules replace. -/
theorem unlisted_renamed (fresh : Fresh rules) (t : Tree) :
    ∀ u ∈ (t.renamed rules).preorder, u.isListed rules = false := by
  have below : ∀ ts : List Tree,
      (∀ t ∈ ts, ∀ u ∈ (t.renamed rules).preorder, u.isListed rules = false) →
      ∀ t ∈ renamedAll rules ts, ∀ u ∈ t.preorder, u.isListed rules = false := by
    intro ts each u member
    rw [renamedAll_eq] at member
    obtain ⟨t, among, rfl⟩ := List.mem_map.mp member
    exact each t among
  induction t using call_induction with
  | leaf k lead lexeme =>
    intro u member
    obtain rfl := List.mem_singleton.mp member
    rfl
  | call lead name ts each =>
    intro u member
    rw [renamed, mem_preorder_node] at member
    obtain rfl | ⟨v, among, member⟩ := member
    · simpa [isListed, calledName?] using unlisted_replaced fresh name
    · obtain rfl | among := List.mem_cons.mp among
      · obtain rfl := List.mem_singleton.mp member
        rfl
      · exact below ts each v among u member
  | other k ts other each =>
    intro u member
    rw [renamed_other other, mem_preorder_node] at member
    obtain rfl | ⟨v, among, member⟩ := member
    · rw [isListed, calledName?_renamed other]
      rfl
    · exact below ts each v among u member

end Tree

/-- A script that has been renamed can be renamed again by the same rules, which changes nothing:
it is read as a tree in which no function is called by a name that they replace. -/
theorem rename_complete {script : String} {r : Renamed} (fresh : Fresh rules)
    (keeps : KeepsTree rules script.toList) (renamed : rename rules script = some r) :
    (∃ t, parse r.text.toList = some t ∧ ∀ u ∈ t.preorder, u.isListed rules = false) ∧
      rename rules r.text = some ⟨r.text, 0⟩ := by
  obtain ⟨t, read, -⟩ := Option.map_eq_some_iff.mp renamed
  cases (rename_eq rules read).symm.trans renamed
  have again : parse (t.renamed rules).text = some (t.renamed rules) := keeps t read
  have unlisted := Tree.unlisted_renamed fresh t
  have nothing : edits rules (t.renamed rules) = [] := by
    rw [edits_eq, ← List.length_eq_zero_iff, length_editsFrom, List.countP_eq_zero]
    exact fun u member => by simp [unlisted u member]
  simp only [String.toList_ofList, rename, again, Option.map_some, nothing]
  exact ⟨⟨_, rfl, unlisted⟩, rfl⟩

def nestedRules : List Renaming := [⟨"App", "WepyApp"⟩, ⟨"go", "run"⟩, ⟨"App", "Other"⟩]

/-- A decorator, a call that is only made if there is a function, and a template in its arguments. -/
theorem rename_complete_nested :
    let script := "@App() class A \x7b m() \x7b go?.(App`a`, App) \x7d \x7d"
    let renamed := "@WepyApp() class A \x7b m() \x7b run?.(WepyApp`a`, App) \x7d \x7d"
    rename nestedRules script = some ⟨renamed, 3⟩ ∧
      rename nestedRules renamed = some ⟨renamed, 0⟩ := by
  intro script renamed
  have fresh : Fresh nestedRules := by decide +kernel
  have keeps : KeepsTree nestedRules script.toList := by decide +kernel
  have once : rename nestedRules script = some ⟨renamed, 3⟩ := by decide +kernel
  exact ⟨once, (rename_complete fresh keeps once).2⟩

end BundleMerge.Script
