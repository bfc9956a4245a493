import BundleMerge.Patch
import BundleMerge.Proofs.Script.Reading
import BundleMerge.Proofs.Script.Walk

/-! What renaming makes of a script: the text of the tree in which the names of called functions
are replaced, and nothing else. The edits that it takes come in the order of the text, and none
reaches into another one. -/
namespace BundleMerge.Script

namespace Tree

mutual

/-- The tree with a new name wherever a function is called by a name that the rules replace. -/
def renamed (rules : List Renaming) : Tree → Tree
  | .leaf k lead lexeme => .leaf k lead lexeme
  | .node .call (.leaf .name lead lexeme :: ts) =>
    .node .call (.leaf .name lead ((replacement? rules lexeme).getD lexeme) :: renamedAll rules ts)
  | .node k ts => .node k (renamedAll rules ts)

def renamedAll (rules : List Renaming) : List Tree → List Tree
  | [] => []
  | t :: ts => renamed rules t :: renamedAll rules ts

end

/-- The tree is a call of a function by a name that some rule replaces. -/
def isListed (rules : List Renaming) (t : Tree) : Bool :=
  t.calledName?.any fun called => rules.any (·.callee.toList = called.2)

end Tree

/-- The edit that the rules ask for at a visited tree. -/
def Visit.edit? (rules : List Renaming) (v : Visit) : Option Edit :=
  v.tree.calledName?.bind fun (lead, name) =>
    (replacement? rules name).map fun r =>
      ⟨v.start + lead.length, v.start + lead.length + name.length, r⟩

/-- The edits that the rules ask for in a tree that starts at a place. -/
def editsFrom (rules : List Renaming) (start : Nat) (t : Tree) : List Edit :=
  (t.visitsFrom start).filterMap (·.edit? rules)

def editsFromAll (rules : List Renaming) (start : Nat) (ts : List Tree) : List Edit :=
  (Tree.visitsFromAll start ts).filterMap (·.edit? rules)

/-- The edit replaces a name in a text that starts at a place, by what the rules have for it. -/
def Edit.Replaces (e : Edit) (rules : List Renaming) (start : Nat) (cs : List Char) : Prop :=
  ∃ before name after, cs = before ++ name ++ after ∧ name ≠ [] ∧
    e.start = start + before.length ∧ e.stop = e.start + name.length ∧
    replacement? rules name = some e.replacement

variable {rules : List Renaming} {name : List Char} {e : Edit} {es : List Edit}
  {t : Tree} {ts : List Tree} {start position : Nat} {cs more : List Char}

/-! ### Rules -/

theorem replacement?_eq_some {r : List Char} :
    replacement? rules name = some r ↔ ∃ before rule after, rules = before ++ rule :: after ∧
      (∀ r ∈ before, r.callee.toList ≠ name) ∧ rule.callee.toList = name ∧
      rule.replacement.toList = r := by
  simp only [replacement?, Option.map_eq_some_iff, List.find?_eq_some_iff_append]
  constructor
  · rintro ⟨rule, ⟨named, before, after, rfl, earlier⟩, rfl⟩
    exact ⟨before, rule, after, rfl, by simpa using earlier, by simpa using named, rfl⟩
  · rintro ⟨before, rule, after, rfl, earlier, named, rfl⟩
    exact ⟨rule, ⟨by simpa using named, before, after, rfl, by simpa using earlier⟩, rfl⟩

theorem replacement?_isSome :
    (replacement? rules name).isSome = rules.any (·.callee.toList = name) := by
  rw [replacement?, Option.isSome_map, Bool.eq_iff_iff, List.find?_isSome, List.any_eq_true]

/-! ### Calls in trees -/

namespace Tree

theorem calledName?_eq_some {lead : List Char} :
    t.calledName? = some (lead, name) ↔ ∃ ts, t = .node .call (.leaf .name lead name :: ts) := by
  constructor
  · intro called
    unfold calledName? at called
    split at called <;> cases called
    exact ⟨_, rfl⟩
  · rintro ⟨ts, rfl⟩
    rfl

/-- An induction that tells the calls of a function by its name from other trees. -/
@[elab_as_elim]
theorem call_induction {motive : Tree → Prop} (leaf : ∀ k lead lexeme, motive (.leaf k lead lexeme))
    (call : ∀ lead name ts, (∀ t ∈ ts, motive t) →
      motive (.node .call (.leaf .name lead name :: ts)))
    (other : ∀ k ts, (node k ts).calledName? = none → (∀ t ∈ ts, motive t) → motive (.node k ts))
    (t : Tree) : motive t := by
  induction t using Tree.induction with
  | leaf k lead lexeme => exact leaf k lead lexeme
  | node k ts each =>
    cases called : (node k ts).calledName? with
    | none => exact other k ts called each
    | some found =>
      obtain ⟨rest, same⟩ := calledName?_eq_some.mp called
      cases same
      exact call _ _ rest fun t member => each t (List.mem_cons_of_mem _ member)

theorem renamed_other {k : Kind} (other : (node k ts).calledName? = none) :
    (node k ts).renamed rules = .node k (renamedAll rules ts) := by
  unfold renamed
  split
  · contradiction
  · rename_i same
    rw [same] at other
    cases other
  · rename_i same
    cases same
    rfl

theorem length_text (t : Tree) : t.text.length = t.width := by
  induction t using Tree.induction with
  | leaf k lead lexeme => rw [text, List.length_append, width]
  | node k ts each =>
    rw [text, width]
    induction ts with
    | nil => rfl
    | cons t ts ih =>
      obtain ⟨first, others⟩ := List.forall_mem_cons.mp each
      rw [textAll, List.length_append, first, ih others, widthAll]

end Tree

/-! ### Edits in trees -/

theorem edits_eq (rules : List Renaming) (t : Tree) : edits rules t = editsFrom rules 0 t := by
  rw [edits, editsFrom, ← visits_eq, List.filterMap_map]
  congr 1
  funext c
  simp only [edit?, Function.comp, Visit.edit?, Cursor.visit]
  cases c.level.tree.calledName? <;> rfl

theorem editsFromAll_cons : editsFromAll rules start (t :: ts) =
    editsFrom rules start t ++ editsFromAll rules (start + t.width) ts :=
  List.filterMap_append ..

theorem editsFrom_call {lead : List Char} :
    editsFrom rules start (.node .call (.leaf .name lead name :: ts)) =
      ((replacement? rules name).map fun r =>
        (⟨start + lead.length, start + lead.length + name.length, r⟩ : Edit)).toList ++
      editsFromAll rules (start + (lead.length + name.length)) ts := by
  rw [editsFrom, Tree.visitsFrom, Tree.visitsFromAll, List.filterMap_cons]
  simp only [Visit.edit?, Tree.calledName?, Option.bind_some]
  cases replacement? rules name <;> rfl

theorem editsFrom_other {k : Kind} (other : (Tree.node k ts).calledName? = none) :
    editsFrom rules start (.node k ts) = editsFromAll rules start ts := by
  rw [editsFrom, Tree.visitsFrom, List.filterMap_cons, Visit.edit?, other]
  rfl

/-- There is an edit for each call of a function by a name that the rules replace. -/
theorem length_editsFrom (rules : List Renaming) (start : Nat) (t : Tree) :
    (editsFrom rules start t).length = t.preorder.countP (·.isListed rules) := by
  rw [editsFrom, List.length_filterMap_eq_countP, ← Tree.map_tree_visitsFrom start, List.countP_map]
  congr 1
  funext v
  simp only [Visit.edit?, Function.comp, Tree.isListed]
  cases v.tree.calledName? with
  | none => rfl
  | some called =>
    rw [Option.bind_some, Option.isSome_map, replacement?_isSome, Option.any_some]

namespace Edit.Replaces

theorem bounds (replaces : e.Replaces rules start cs) :
    start ≤ e.start ∧ e.start < e.stop ∧ e.stop ≤ start + cs.length := by
  obtain ⟨before, name, after, rfl, letters, begins, ends, -⟩ := replaces
  have positive := List.length_pos_iff.mpr letters
  simp only [List.length_append]
  omega

theorem append (replaces : e.Replaces rules start cs) : e.Replaces rules start (cs ++ more) := by
  obtain ⟨before, name, after, rfl, letters, begins, ends, replaced⟩ := replaces
  exact ⟨before, name, after ++ more, by simp only [List.append_assoc], letters, begins, ends,
    replaced⟩

theorem prepend (replaces : e.Replaces rules (start + more.length) cs) :
    e.Replaces rules start (more ++ cs) := by
  obtain ⟨before, name, after, rfl, letters, begins, ends, replaced⟩ := replaces
  have shifted : e.start = start + (more ++ before).length := by
    rw [begins, List.length_append, Nat.add_assoc]
  exact ⟨more ++ before, name, after, by simp only [List.append_assoc], letters, shifted, ends,
    replaced⟩

end Edit.Replaces

theorem replaces_all
    (each : ∀ t ∈ ts, ∀ start, ∀ e ∈ editsFrom rules start t, e.Replaces rules start t.text) :
    ∀ e ∈ editsFromAll rules start ts, e.Replaces rules start (Tree.textAll ts) := by
  induction ts generalizing start with
  | nil => exact nofun
  | cons t ts ih =>
    obtain ⟨first, others⟩ := List.forall_mem_cons.mp each
    intro e edited
    rw [editsFromAll_cons, ← Tree.length_text] at edited
    rw [Tree.textAll]
    obtain here | later := List.mem_append.mp edited
    · exact (first start e here).append
    · exact (ih others e later).prepend

/-- Each edit in a tree replaces a name in its text. -/
theorem editsFrom_replaces (named : t.Named) (start : Nat) :
    ∀ e ∈ editsFrom rules start t, e.Replaces rules start t.text := by
  induction t using Tree.call_induction generalizing start with
  | leaf k lead lexeme => exact nofun
  | other k ts other each =>
    rw [editsFrom_other other]
    exact replaces_all fun t member start => each t member (Tree.named_node.mp named t member) start
  | call lead name ts each =>
    obtain ⟨callee, others⟩ := List.forall_mem_cons.mp (Tree.named_node.mp named)
    have letters : name ≠ [] := callee lead name (List.mem_singleton_self _)
    intro e edited
    rw [editsFrom_call] at edited
    rw [Tree.text, Tree.textAll, Tree.text]
    obtain own | below := List.mem_append.mp edited
    · obtain ⟨r, replaced, rfl⟩ := Option.map_eq_some_iff.mp (Option.mem_toList.mp own)
      exact ⟨lead, name, Tree.textAll ts, rfl, letters, rfl, rfl, replaced⟩
    · rw [← List.length_append] at below
      exact (replaces_all (fun t member start => each t member (others t member) start)
        e below).prepend

theorem editsFromAll_replaces (named : ∀ t ∈ ts, t.Named) :
    ∀ e ∈ editsFromAll rules start ts, e.Replaces rules start (Tree.textAll ts) :=
  replaces_all fun t member start => editsFrom_replaces (named t member) start

theorem pairwise_all (named : ∀ t ∈ ts, t.Named)
    (each : ∀ t ∈ ts, ∀ start, (editsFrom rules start t).Pairwise (·.stop ≤ ·.start)) :
    (editsFromAll rules start ts).Pairwise (·.stop ≤ ·.start) := by
  induction ts generalizing start with
  | nil => exact .nil
  | cons t ts ih =>
    obtain ⟨first, others⟩ := List.forall_mem_cons.mp each
    obtain ⟨firstNamed, othersNamed⟩ := List.forall_mem_cons.mp named
    rw [editsFromAll_cons]
    refine List.pairwise_append.mpr ⟨first start, ih othersNamed others, ?_⟩
    intro e here e' later
    have ends := (editsFrom_replaces firstNamed start e here).bounds.2.2
    have begins := (editsFromAll_replaces othersNamed e' later).bounds.1
    rw [Tree.length_text] at ends
    exact Nat.le_trans ends begins

/-- An edit ends before the next one begins. -/
theorem pairwise_editsFrom (rules : List Renaming) (named : t.Named) (start : Nat) :
    (editsFrom rules start t).Pairwise (·.stop ≤ ·.start) := by
  induction t using Tree.call_induction generalizing start with
  | leaf k lead lexeme => exact .nil
  | other k ts other each =>
    have named := Tree.named_node.mp named
    rw [editsFrom_other other]
    exact pairwise_all named fun t member start => each t member (named t member) start
  | call lead name ts each =>
    obtain ⟨-, others⟩ := List.forall_mem_cons.mp (Tree.named_node.mp named)
    rw [editsFrom_call]
    refine List.pairwise_append.mpr ⟨?_, ?_, ?_⟩
    · cases replacement? rules name with
      | none => exact .nil
      | some r => exact List.pairwise_singleton _ _
    · exact pairwise_all others fun t member start => each t member (others t member) start
    · intro e own e' below
      obtain ⟨r, -, rfl⟩ := Option.map_eq_some_iff.mp (Option.mem_toList.mp own)
      have begins := (editsFromAll_replaces others e' below).bounds.1
      dsimp only
      omega

/-! ### The text with its edits made -/

/-- The edits come after a text that ends at a place. -/
def Beyond (position : Nat) (es : List Edit) : Prop :=
  ∀ e ∈ es, position ≤ e.start ∧ e.start < e.stop

theorem beyond_all (rules : List Renaming) (named : ∀ t ∈ ts, t.Named)
    (beyond : Beyond (start + Tree.widthAll ts) es) :
    Beyond start (editsFromAll rules start ts ++ es) := by
  intro e member
  obtain here | later := List.mem_append.mp member
  · obtain ⟨begins, ends, -⟩ := (editsFromAll_replaces named e here).bounds
    exact ⟨begins, ends⟩
  · obtain ⟨begins, ends⟩ := beyond e later
    exact ⟨by omega, ends⟩

/-- What lies before all edits is left as it is. -/
theorem splice_append (beyond : Beyond (position + more.length) es) :
    splice position es (more ++ cs) = more ++ splice (position + more.length) es cs := by
  cases es with
  | nil => rfl
  | cons e es =>
    obtain ⟨begins, ends⟩ := beyond e (List.mem_cons_self ..)
    have kept : more.take (e.start - position) = more := List.take_of_length_le (by omega)
    have passed : more.drop (e.stop - position) = [] := List.drop_eq_nil_of_le (by omega)
    simp only [splice, List.take_append, List.drop_append, kept, passed, List.nil_append,
      List.append_assoc, Nat.sub_sub]

theorem splice_edit {lead r : List Char} :
    splice start (⟨start + lead.length, start + lead.length + name.length, r⟩ :: es)
        (lead ++ name ++ cs) =
      lead ++ r ++ splice (start + (lead.length + name.length)) es cs := by
  have before : (lead ++ name ++ cs).take (start + lead.length - start) = lead := by
    rw [Nat.add_sub_cancel_left, List.append_assoc, List.take_left]
  have after : (lead ++ name ++ cs).drop (start + lead.length + name.length - start) = cs := by
    rw [Nat.add_assoc, Nat.add_sub_cancel_left, ← List.length_append, List.drop_left]
  rw [splice, before, after, Nat.add_assoc]

theorem splice_all (cs : List Char) (named : ∀ t ∈ ts, t.Named)
    (each : ∀ t ∈ ts, ∀ start es rest, Beyond (start + t.width) es →
      splice start (editsFrom rules start t ++ es) (t.text ++ rest) =
        (t.renamed rules).text ++ splice (start + t.width) es rest)
    (beyond : Beyond (start + Tree.widthAll ts) es) :
    splice start (editsFromAll rules start ts ++ es) (Tree.textAll ts ++ cs) =
      Tree.textAll (Tree.renamedAll rules ts) ++ splice (start + Tree.widthAll ts) es cs := by
  induction ts generalizing start with
  | nil => rfl
  | cons t ts ih =>
    obtain ⟨first, others⟩ := List.forall_mem_cons.mp each
    obtain ⟨-, othersNamed⟩ := List.forall_mem_cons.mp named
    have width : start + t.width + Tree.widthAll ts = start + Tree.widthAll (t :: ts) := by
      rw [Tree.widthAll, Nat.add_assoc]
    rw [editsFromAll_cons, Tree.textAll, List.append_assoc, List.append_assoc,
      first start _ _ (beyond_all rules othersNamed (width ▸ beyond)),
      ih othersNamed others (width ▸ beyond), width, Tree.renamedAll, Tree.textAll,
      List.append_assoc]

/-- The text of a tree with its edits made is that of the renamed tree. -/
theorem splice_editsFrom {rest : List Char} (named : t.Named)
    (beyond : Beyond (start + t.width) es) :
    splice start (editsFrom rules start t ++ es) (t.text ++ rest) =
      (t.renamed rules).text ++ splice (start + t.width) es rest := by
  induction t using Tree.call_induction generalizing start es rest with
  | leaf k lead lexeme =>
    rw [← Tree.length_text] at beyond ⊢
    exact splice_append beyond
  | other k ts other each =>
    have named := Tree.named_node.mp named
    rw [editsFrom_other other, Tree.renamed_other other]
    exact splice_all rest named (fun t member _ _ _ => each t member (named t member)) beyond
  | call lead name ts each =>
    obtain ⟨-, others⟩ := List.forall_mem_cons.mp (Tree.named_node.mp named)
    have width : start + (lead.length + name.length) + Tree.widthAll ts =
        start + (Tree.node .call (.leaf .name lead name :: ts)).width := by
      rw [Tree.width, Tree.widthAll, Tree.width, Nat.add_assoc]
    have arguments := splice_all rest others
      (fun t member _ _ _ => each t member (others t member)) (width ▸ beyond)
    rw [width] at arguments
    rw [editsFrom_call, Tree.text, Tree.textAll, Tree.text, Tree.renamed, Tree.text, Tree.textAll,
      Tree.text]
    cases replacement? rules name with
    | some r =>
      simp only [Option.map_some, Option.toList_some, List.cons_append, List.nil_append,
        List.append_assoc (lead ++ _), Option.getD_some]
      rw [splice_edit, arguments]
    | none =>
      have later := beyond_all rules others (width ▸ beyond)
      rw [← List.length_append] at later arguments ⊢
      simp only [Option.map_none, Option.toList_none, List.nil_append,
        List.append_assoc (lead ++ _), Option.getD_none]
      rw [splice_append later, arguments]

theorem splice_edits (named : t.Named) :
    splice 0 (edits rules t) t.text = (t.renamed rules).text := by
  have spliced : splice 0 (editsFrom rules 0 t ++ []) (t.text ++ []) =
      (t.renamed rules).text ++ splice (0 + t.width) [] [] := splice_editsFrom named nofun
  simpa only [edits_eq, List.append_nil, splice] using spliced

/-- A script that is read as a tree is renamed to the text of the renamed tree. -/
theorem rename_eq {script : String} (rules : List Renaming)
    (read : parse script.toList = some t) : rename rules script = some
      ⟨.ofList (t.renamed rules).text, t.preorder.countP (·.isListed rules)⟩ := by
  rw [rename, read, Option.map_some]
  dsimp only
  rw [← parse_text read, splice_edits (parse_named read), edits_eq, length_editsFrom]

end BundleMerge.Script

namespace BundleMerge.Patcher

open Script

theorem patch_eq (p : Patcher) {script : String} {t : Script.Tree}
    (read : parse script.toList = some t) :
    p.patch script = some (p.bridgeScript ++ .ofList (t.renamed p.rules).text) := by
  rw [patch, rename_eq p.rules read, Option.map_some]

/-- Whether a script can be read does not hang on the rules. If it can, then its tree spells it,
and it is renamed to the text of the tree in which every name that calls a function and that the
rules replace has been replaced; the bridge file is the bridge script followed by that text. The
edits come one after the other within the script, and each puts what the first rule for a name
says in the place of that name. -/
theorem patch_renamed (p : Patcher) (script : String) :
    (∀ rules, (rename rules script).isSome = (parse script.toList).isSome) ∧
    (p.patch script).isSome = (parse script.toList).isSome ∧
    ∀ t, parse script.toList = some t →
      t.text = script.toList ∧
      rename p.rules script = some
        ⟨.ofList (t.renamed p.rules).text, t.preorder.countP (·.isListed p.rules)⟩ ∧
      p.patch script = some (p.bridgeScript ++ .ofList (t.renamed p.rules).text) ∧
      (edits p.rules t).Pairwise (fun e e' => e.start < e'.start ∧ e.stop ≤ e'.start) ∧
      ∀ e ∈ edits p.rules t, e.start < e.stop ∧ e.stop ≤ script.length ∧
        ∃ before rule after, p.rules = before ++ rule :: after ∧
          (∀ r ∈ before, r.callee ≠ rule.callee) ∧
          (script.toList.drop e.start).take (e.stop - e.start) = rule.callee.toList ∧
          e.replacement = rule.replacement.toList := by
  refine ⟨fun rules => by rw [rename, Option.isSome_map], ?_, fun t read => ?_⟩
  · rw [patch, Option.isSome_map, rename, Option.isSome_map]
  have spelled := parse_text read
  have named := parse_named read
  have replaces : ∀ e ∈ edits p.rules t, e.Replaces p.rules 0 script.toList := by
    rw [edits_eq, ← spelled]
    exact editsFrom_replaces named 0
  refine ⟨spelled, rename_eq p.rules read, p.patch_eq read, ?_, fun e edited => ?_⟩
  · have ordered := pairwise_editsFrom p.rules named 0
    rw [← edits_eq] at ordered
    refine ordered.imp_of_mem fun {e e'} here _ apart => ⟨?_, apart⟩
    exact Nat.lt_of_lt_of_le (replaces e here).bounds.2.1 apart
  · obtain ⟨-, nonempty, within⟩ := (replaces e edited).bounds
    obtain ⟨front, name, rest, whole, -, begins, ends, replaced⟩ := replaces e edited
    obtain ⟨before, rule, after, listed, earlier, calls, puts⟩ := replacement?_eq_some.mp replaced
    have cut : (script.toList.drop e.start).take (e.stop - e.start) = name := by
      rw [whole, ends, begins, Nat.zero_add, Nat.add_sub_cancel_left, List.append_assoc,
        List.drop_left, List.take_left]
    rw [Nat.zero_add, String.length_toList] at within
    refine ⟨nonempty, within, before, rule, after, listed, ?_, ?_, puts.symm⟩
    · exact fun r member same => earlier r member (same ▸ calls)
    · rw [cut, calls]

/-- Calls within calls and before templates are renamed, by the first rule for them and once;
methods and what is put in are not. -/
theorem patch_renamed_nested :
    let p : Patcher := ⟨"let App;\n", [⟨"App", "WepyApp"⟩, ⟨"go", "App"⟩, ⟨"App", "Other"⟩]⟩
    let script := "App(wx.App(App`a`, App), go());"
    ∃ t, parse script.toList = some t ∧ t.text = script.toList ∧
      String.ofList (t.renamed p.rules).text = "WepyApp(wx.App(WepyApp`a`, App), App());" ∧
      t.preorder.countP (·.isListed p.rules) = 3 ∧
      p.patch script = some "let App;\nWepyApp(wx.App(WepyApp`a`, App), App());" ∧
      (edits p.rules t).Pairwise (fun e e' => e.start < e'.start ∧ e.stop ≤ e'.start) := by
  intro p script
  have known : rename p.rules script = some ⟨"WepyApp(wx.App(WepyApp`a`, App), App());", 3⟩ := by
    decide +kernel
  have readable : (parse script.toList).isSome = true := by decide +kernel
  obtain ⟨t, read⟩ := Option.isSome_iff_exists.mp readable
  obtain ⟨spelled, renames, patched, ordered, -⟩ := (patch_renamed p script).2.2 t read
  obtain ⟨text, count⟩ := Renamed.mk.inj (Option.some.inj (renames.symm.trans known))
  exact ⟨t, read, spelled, text, count, by rw [patched, text]; rfl, ordered⟩

end BundleMerge.Patcher
