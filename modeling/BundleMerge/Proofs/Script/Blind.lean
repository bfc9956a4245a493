import BundleMerge.Proofs.Script.Reading

/-! What the grammar of scripts does not look at. Whether trees fit together is decided by their
shapes, that is by their kinds and their marks, and never by a name, a literal, a blank or a
comment: other trees of the same shapes fit as well. -/
namespace BundleMerge.Script

namespace Tree

mutual

/-- The tree with nothing at its leaves but marks. -/
def shape : Tree → Tree
  | .leaf .mark _ lexeme => .leaf .mark [] lexeme
  | .leaf k _ _ => .leaf k [] []
  | .node k ts => .node k (shapeAll ts)

def shapeAll : List Tree → List Tree
  | [] => []
  | t :: ts => shape t :: shapeAll ts

end

theorem shapeAll_eq (ts : List Tree) : shapeAll ts = ts.map shape := by
  induction ts with
  | nil => rfl
  | cons t ts ih => rw [shapeAll, ih, List.map_cons]

/-! ### Conditions on trees -/

@[simp] theorem hasKind_shape (t : Tree) (k : Kind) :
    t.shape.hasKind k = t.hasKind k := by
  rcases t with ⟨k, lead, lexeme⟩ | ⟨k, ts⟩
  · cases k <;> rfl
  · rfl

@[simp] theorem isMark_shape (t : Tree) (s : String) : t.shape.isMark s = t.isMark s := by
  rcases t with ⟨k, lead, lexeme⟩ | ⟨k, ts⟩
  · cases k <;> rfl
  · rfl

@[simp] theorem isSome_name?_shape (t : Tree) :
    t.shape.name?.isSome = t.name?.isSome := by
  rcases t with ⟨k, lead, lexeme⟩ | ⟨k, ts⟩
  · cases k <;> rfl
  · rfl

theorem inner_map (ts : List Tree) : inner (ts.map shape) = (inner ts).map shape := by
  rw [inner, inner, ← List.map_drop, List.map_dropLast]

theorem isGroup_map (ts : List Tree) : isGroup (ts.map shape) = isGroup ts := by
  unfold isGroup
  rw [inner_map, List.getLast?_map]
  cases (inner ts).getLast? <;> simp [List.any_map, Function.comp_def]

theorem parted_map (item : Bool) (ts : List Tree) :
    parted item (ts.map shape) = parted item ts := by
  induction ts generalizing item with
  | nil => rfl
  | cons t ts ih => simp [parted, ih]

theorem settledAll_eq (ts : List Tree) : settledAll ts = ts.all settled := by
  induction ts with
  | nil => rfl
  | cons t ts ih => rw [settledAll, ih, List.all_cons]

@[simp] theorem settled_shape (t : Tree) : t.shape.settled = t.settled := by
  induction t using Tree.induction with
  | leaf k lead lexeme => cases k <;> rfl
  | node k ts each =>
    have all : settledAll (shapeAll ts) = settledAll ts := by
      rw [shapeAll_eq, settledAll_eq, settledAll_eq, List.all_map, Bool.eq_iff_iff]
      simp +contextual [List.all_eq_true, each]
    have group : isGroup (shapeAll ts) = isGroup ts := by rw [shapeAll_eq, isGroup_map]
    cases k <;> simp [shape, settled, all, group]

theorem settledAll_map (ts : List Tree) : settledAll (ts.map shape) = settledAll ts := by
  simp [settledAll_eq, List.all_map, Function.comp_def]

/-- Whether a tree is a target depends on its shape. -/
theorem targets_shape :
    (∀ t : Tree, t.shape.isTarget = t.isTarget) ∧
      (∀ ts, arePropertyTargets (shapeAll ts) = arePropertyTargets ts) ∧
      (∀ ts, isLastTarget (shapeAll ts) = isLastTarget ts) ∧
      ∀ ts, areTargets (shapeAll ts) = areTargets ts := by
  refine isTarget.mutual_induct _ _ _ _ ?_ ?_ ?_ ?_ ?_ ?_ ?other ?_ ?_ ?_ ?_ ?_ ?_ ?otherProperty
    ?_ ?_ ?last ?earlier ?_ ?_ ?_ ?_ ?otherItem
  case other =>
    intro t
    rcases t with ⟨k, lead, lexeme⟩ | ⟨k, ts⟩ <;> cases k <;> simp [shape, isTarget]
  case otherProperty =>
    intro ts
    rcases ts with _ | ⟨⟨k, lead, lexeme⟩ | ⟨k, us⟩, ts⟩
    · simp
    · cases k <;> simp [shape, shapeAll, arePropertyTargets]
    · rcases us with _ | ⟨a, _ | ⟨b, _ | ⟨c, us⟩⟩⟩ <;> cases k <;>
        simp [shape, shapeAll, arePropertyTargets]
  case last =>
    intro t
    rcases t with ⟨k, lead, lexeme⟩ | ⟨k, _ | ⟨a, us⟩⟩ <;> cases k <;>
      simp [shape, shapeAll, isLastTarget]
  case earlier =>
    intro t ts
    cases ts <;> simp [shapeAll, isLastTarget]
  case otherItem =>
    intro t ts
    rcases t with ⟨k, lead, lexeme⟩ | ⟨k, _ | ⟨a, _ | ⟨b, _ | ⟨c, us⟩⟩⟩⟩ <;> cases k <;>
      simp +contextual [shape, shapeAll, areTargets]
  all_goals
    intros
    simp_all [shape, shapeAll, isTarget, arePropertyTargets, isLastTarget, areTargets]

@[simp] theorem isTarget_shape (t : Tree) : t.shape.isTarget = t.isTarget :=
  targets_shape.1 t

@[simp] theorem isParameters_shape (t : Tree) :
    t.shape.isParameters = t.isParameters := by
  rcases t with ⟨k, lead, lexeme⟩ | ⟨k, ts⟩
  · cases k <;> rfl
  · have targets := targets_shape.2.2.2 ts
    rw [shapeAll_eq] at targets
    cases k <;> simp [shape, shapeAll_eq, isParameters, areParameters, inner_map, parted_map,
      targets]

@[simp] theorem isArrowHead_shape (t : Tree) : t.shape.isArrowHead = t.isArrowHead := by
  simp [isArrowHead]

@[simp] theorem isAssignable_shape (t : Tree) :
    t.shape.isAssignable = t.isAssignable := by
  have settles := settled_shape t
  have targets := isTarget_shape t
  rcases t with ⟨k, lead, lexeme⟩ | ⟨k, ts⟩ <;> cases k <;> first | exact targets | exact settles

@[simp] theorem isAmendable_shape (t : Tree) : t.shape.isAmendable = t.isAmendable := by
  have settles := settled_shape t
  rcases t with ⟨k, lead, lexeme⟩ | ⟨k, ts⟩ <;> cases k <;> first | rfl | exact settles

@[simp] theorem isPattern_shape (t : Tree) : t.shape.isPattern = t.isPattern := by
  simp [isPattern]

section
variable (ts : List Tree)

@[simp] theorem afterValue_map : afterValue (ts.map shape) = afterValue ts := by
  cases ts <;> simp [afterValue]

@[simp] theorem afterPrimary_map : afterPrimary (ts.map shape) = afterPrimary ts := by
  cases ts <;> simp [afterPrimary]

@[simp] theorem afterTag_map : afterTag (ts.map shape) = afterTag ts := by
  cases ts <;> simp [afterTag]

@[simp] theorem isCall_map : isCall (ts.map shape) = isCall ts := by
  cases ts <;> simp [isCall, settledAll_map]

@[simp] theorem afterArrowHead_map : afterArrowHead (ts.map shape) = afterArrowHead ts := by
  cases ts <;> simp [afterArrowHead]

@[simp] theorem afterAssignable_map :
    afterAssignable (ts.map shape) = afterAssignable ts := by
  cases ts <;> simp [afterAssignable]

@[simp] theorem afterAmendable_map : afterAmendable (ts.map shape) = afterAmendable ts := by
  cases ts <;> simp [afterAmendable]

end

end Tree

/-! ### Rules -/

section
variable {Symbol Class : Type}

/-- Conditions in the rule look at nothing but shapes. -/
def Rule.Blind : Rule Symbol Class → Prop
  | .lexeme _ | .nothing | .symbol _ => True
  | .seq first second | .alt first second => first.Blind ∧ second.Blind
  | .many r | .ahead r | .never r | .node _ r | .must r => r.Blind
  | .extend fit _ r => (∀ ts : List Tree, fit (ts.map Tree.shape) = fit ts) ∧ r.Blind
  | .check fit r => (∀ t : Tree, fit t.shape = fit t) ∧ r.Blind

namespace Rule

variable {r first second : Rule Symbol Class} {k : Kind}

@[simp] theorem blind_lexeme (c : Class) : (lexeme c : Rule Symbol Class).Blind := trivial

@[simp] theorem blind_nothing : (nothing : Rule Symbol Class).Blind := trivial

@[simp] theorem blind_symbol (x : Symbol) : (symbol x : Rule Symbol Class).Blind := trivial

@[simp] theorem blind_seq : (seq first second).Blind ↔ first.Blind ∧ second.Blind := .rfl

@[simp] theorem blind_alt : (alt first second).Blind ↔ first.Blind ∧ second.Blind := .rfl

@[simp] theorem blind_many : (many r).Blind ↔ r.Blind := .rfl

@[simp] theorem blind_ahead : (ahead r).Blind ↔ r.Blind := .rfl

@[simp] theorem blind_never : (never r).Blind ↔ r.Blind := .rfl

@[simp] theorem blind_node : (node k r).Blind ↔ r.Blind := .rfl

@[simp] theorem blind_must : (must r).Blind ↔ r.Blind := .rfl

@[simp] theorem blind_extend {fit : List Tree → Bool} : (extend fit k r).Blind ↔
    (∀ ts : List Tree, fit (ts.map Tree.shape) = fit ts) ∧ r.Blind := .rfl

@[simp] theorem blind_check {fit : Tree → Bool} : (check fit r).Blind ↔
    (∀ t : Tree, fit t.shape = fit t) ∧ r.Blind := .rfl

end Rule

theorem fit_of_shapes {fit : List Tree → Bool} (blind : ∀ ts, fit (ts.map Tree.shape) = fit ts)
    {ts us : List Tree} (alike : ts.map Tree.shape = us.map Tree.shape) : fit ts = fit us := by
  rw [← blind ts, alike, blind us]

theorem all_fit_of_shapes {fit : Tree → Bool} (blind : ∀ t, fit t.shape = fit t)
    {ts us : List Tree} (alike : ts.map Tree.shape = us.map Tree.shape) :
    ts.all fit = us.all fit := by
  have all : ∀ ts : List Tree, (ts.map Tree.shape).all fit = ts.all fit := by
    intro ts
    rw [List.all_map]
    exact congrArg ts.all (funext blind)
  rw [← all ts, alike, all us]

end

/-! ### The grammar -/

namespace Syntax

variable {r : Syntax} {rs : List Syntax}

@[simp] theorem blind_mark (m : String) : (mark m).Blind := trivial

@[simp] theorem blind_exact (m : String) : (exact m).Blind := trivial

@[simp] theorem blind_word (w : String) : (word w).Blind := trivial

@[simp] theorem blind_name (reserved : List String) : (name reserved).Blind := trivial

@[simp] theorem blind_statementEnd (afterValue : Bool) : (statementEnd afterValue).Blind :=
  ⟨trivial, trivial⟩

@[simp] theorem blind_row : (row rs).Blind ↔ ∀ r ∈ rs, r.Blind := by
  induction rs with
  | nil => simp [row]
  | cons r rs ih => cases rs <;> simp_all [row]

@[simp] theorem blind_any : (any rs).Blind ↔ ∀ r ∈ rs, r.Blind := by
  induction rs with
  | nil => simp [any]
  | cons r rs ih => cases rs <;> simp_all [any]

@[simp] theorem blind_maybe : (maybe r).Blind ↔ r.Blind := by
  simp [maybe]

@[simp] theorem blind_listed : (listed r).Blind ↔ r.Blind := by
  simp [listed]

@[simp] theorem blind_sparse : (sparse r).Blind ↔ r.Blind := by
  simp [sparse]

@[simp] theorem blind_after {first : Syntax} :
    (after first r).Blind ↔ first.Blind ∧ r.Blind := by
  simp [after]

@[simp] theorem blind_spread : (spread r).Blind ↔ r.Blind := by
  simp [spread]

@[simp] theorem blind_braced : (braced r).Blind ↔ r.Blind := by
  simp [braced]

@[simp] theorem blind_renamed : (renamed r).Blind ↔ r.Blind := by
  simp [renamed]

@[simp] theorem blind_goesOn (p : Place) : (goesOn p).Blind := by
  unfold goesOn
  split <;> simp [Rule.Blind]

@[simp] theorem blind_condition : condition.Blind := by
  simp [condition]

@[simp] theorem blind_parameters : parameters.Blind := by
  simp [parameters]

@[simp] theorem blind_arguments : arguments.Blind := by
  simp [arguments, covering]

@[simp] theorem blind_propertyName : propertyName.Blind := by
  simp [propertyName, expression]

@[simp] theorem blind_decorator : decorator.Blind := by
  simp [decorator]

@[simp] theorem blind_method : method.Blind := by
  simp [method]

@[simp] theorem blind_functionTail : functionTail.Blind := by
  simp [functionTail]

@[simp] theorem blind_classTail : classTail.Blind := by
  simp [classTail, expression]

@[simp] theorem blind_taggedTemplate : taggedTemplate.Blind := by
  simp [taggedTemplate]

@[simp] theorem blind_arrowBody (p : Place) : (arrowBody p).Blind := by
  simp [arrowBody]

@[simp] theorem blind_markupName : markupName.Blind := by
  simp [markupName]

@[simp] theorem blind_markupExpression : markupExpression.Blind := by
  simp [markupExpression, expression, expressions]

@[simp] theorem blind_binding : binding.Blind := by
  simp [binding]

@[simp] theorem blind_letWord (words : List String) : (letWord words).Blind := by
  simp [letWord]

theorem blind_operators (hasIn : Bool) : ∀ r ∈ operators hasIn, r.Blind := by
  cases hasIn <;> simp [operators]

@[simp] theorem blind_chain (p : Place) : (chain p).Blind := by
  simp [chain, selections, expressions]

/-! Statements of one kind each. -/

@[simp] theorem blind_functionDeclaration : functionDeclaration.Blind := by
  simp [functionDeclaration]

@[simp] theorem blind_classDeclaration : classDeclaration.Blind := by
  simp [classDeclaration]

@[simp] theorem blind_lexical : lexical.Blind := by
  simp [lexical]

@[simp] theorem blind_variableDeclaration : variableDeclaration.Blind := by
  simp [variableDeclaration]

@[simp] theorem blind_expressionStatement : expressionStatement.Blind := by
  simp [expressionStatement]

@[simp] theorem blind_forStatement : forStatement.Blind := by
  simp [forStatement, forEach, forSteps, expressions]

@[simp] theorem blind_tryStatement : tryStatement.Blind := by
  simp [tryStatement]

@[simp] theorem blind_switchStatement : switchStatement.Blind := by
  simp [switchStatement, expressions]

@[simp] theorem blind_jump : jump.Blind := by
  simp [jump]

@[simp] theorem blind_returnStatement : returnStatement.Blind := by
  simp [returnStatement]

@[simp] theorem blind_importStatement : importStatement.Blind := by
  simp [importStatement, exportedName, source]

@[simp] theorem blind_exportStatement : exportStatement.Blind := by
  simp [exportStatement, exportedName, source, declaration]

end Syntax

open Syntax in
/-- The rules of the grammar look at nothing but shapes. -/
theorem grammar_blind (x : Symbol) : (x.rule).Blind := by
  cases x with
  | program => simp [Symbol.rule, program]
  | statement =>
    simp [Symbol.rule, statement]
  | block => simp [Symbol.rule, block]
  | declarators hasIn => simp [Symbol.rule, declarators]
  | expressions p => simp [Symbol.rule]
  | expression p => simp [Symbol.rule]
  | covering p =>
    have operators := blind_operators p.hasIn
    simpa [Symbol.rule, coveringAt, expression] using operators
  | operand p => simp [Symbol.rule, operand, amendments]
  | chainStart => simp [Symbol.rule, chainStart]
  | construction => simp [Symbol.rule, construction, selections, expressions]
  | parens => simp [Symbol.rule, parens, covering]
  | array => simp [Symbol.rule, array, covering]
  | object => simp [Symbol.rule, object, expression, covering]
  | function => simp [Symbol.rule, function]
  | classDef => simp [Symbol.rule, classDef]
  | member => simp [Symbol.rule, member]
  | template => simp [Symbol.rule, template, expressions]
  | element => simp [Symbol.rule, element, markupAttribute]

end BundleMerge.Script
