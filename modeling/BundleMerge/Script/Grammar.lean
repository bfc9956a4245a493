import BundleMerge.Script.Cover
import BundleMerge.Script.Token

/-! The grammar of scripts: statements, expressions, classes, modules, decorators and markup, of
scripts and modules alike. It is lenient: words are names wherever they have no meaning of their
own, and what only a look at the whole script could refuse is accepted. -/
namespace BundleMerge.Script

structure Place where
  /-- The statement may end after it without a semicolon. -/
  ends : Bool
  hasIn : Bool

inductive Symbol where
  | program
  | statement
  | block
  | declarators (hasIn : Bool)
  | expressions (p : Place)
  | expression (p : Place)
  | covering (p : Place)
  | operand (p : Place)
  | chainStart
  | construction
  | parens
  | array
  | object
  | function
  | classDef
  | member
  | template
  | element

abbrev Syntax := Rule Symbol Token

namespace Syntax

def mark (m : String) : Syntax := .lexeme (.mark m)
def exact (m : String) : Syntax := .lexeme (.exact m)
def word (w : String) : Syntax := .lexeme (.word w)
def name (reserved : List String) : Syntax := .lexeme (.name reserved)

def row : List Syntax → Syntax
  | [] => .nothing
  | [r] => r
  | r :: rs => .seq r (row rs)

def any : List Syntax → Syntax
  | [] => .never .nothing
  | [r] => r
  | r :: rs => .alt r (any rs)

def maybe (r : Syntax) : Syntax := .alt r .nothing

/-- One or more, with commas between them. -/
def listed (r : Syntax) : Syntax := .seq r (.many (.seq (mark ",") r))

def statementEnd (afterValue : Bool) : Syntax :=
  .alt (mark ";") (.lexeme (.statementEnd afterValue))

/-- Where an expression may end and the statement does not. -/
def goesOn (p : Place) : Syntax :=
  if p.ends then .never (.lexeme (.statementEnd true)) else .nothing

def within : Place := ⟨false, true⟩

def atEnd : Place := ⟨true, true⟩

def expressions : Syntax := .symbol (.expressions within)
def expression : Syntax := .symbol (.expression within)
def covering : Syntax := .symbol (.covering within)

def expressionWords : List String :=
  ["function", "class", "new", "await", "yield", "typeof", "void", "delete", "this", "super",
   "true", "false", "null", "import", "undefined"]

def statementWords : List String :=
  ["var", "const", "if", "for", "while", "do", "switch", "try", "with", "break", "continue",
   "debugger", "return", "throw"]

def relations : List String := ["in", "instanceof", "of"]

/-! ### Expressions -/

def spread (r : Syntax) : Syntax := .node .spread (row [mark "...", r])

/-- Items between commas, where items may be missing. -/
def sparse (r : Syntax) : Syntax := .seq (maybe r) (.many (.seq (mark ",") (maybe r)))

def parens : Syntax :=
  let item := any [spread covering, covering]
  .node .parens (row [mark "(", maybe (.seq (listed item) (maybe (mark ","))), mark ")"])

def array : Syntax :=
  .node .array (row [mark "[", sparse (any [spread covering, covering]), mark "]"])

def arguments : Syntax :=
  .node .arguments (row [mark "(", sparse (any [spread covering, covering]), mark ")"])

/-- An expression in parentheses, after a word that needs one. -/
def condition : Syntax := .check Tree.settled (.symbol .parens)

def parameters : Syntax := .check Tree.isParameters (.symbol .parens)

def propertyName : Syntax :=
  any [.lexeme .property, .lexeme .privateName, .lexeme .string, .lexeme .number,
    row [mark "[", expression, mark "]"]]

def decorator : Syntax :=
  .node .decorator (row [mark "@", name [],
    .many (.extend (fun _ => true) .member (row [mark ".", name []])),
    maybe (.extend (fun _ => true) .call arguments)])

/-- A word that says what kind of member follows, or else is the member's name. -/
def after (first r : Syntax) : Syntax := .alt (.seq first r) r

def method : Syntax :=
  .node .method (row [.many decorator,
    after (word "static") (after (word "async")
      (after (any [word "get", word "set", mark "*"])
        (row [propertyName, .ahead (mark "("), .must (row [parameters, .symbol .block])])))])

def object : Syntax :=
  let initialized := .node .initialized (row [name [], mark "=", expression])
  let property := any [spread covering, method,
    .node .pair (row [propertyName, mark ":", covering]), initialized, .lexeme .property]
  .node .object (row [mark "\x7b", sparse property, mark "\x7d"])

def member : Syntax :=
  let initial := any [row [mark "=", .symbol (.expression atEnd), statementEnd true],
    statementEnd false]
  any [method, .node .block (row [word "static", .symbol .block]),
    .node .statement (row [.many decorator,
      after (word "static") (row [propertyName, initial])]),
    mark ";"]

def classTail : Syntax :=
  row [maybe (row [word "extends", expression]),
    mark "\x7b", .many (.symbol .member), mark "\x7d"]

def classDef : Syntax :=
  .node .classDef (row [.many decorator, word "class", maybe (name ["extends"]), classTail])

def functionTail : Syntax := row [parameters, .symbol .block]

def function : Syntax :=
  .node .function (row [maybe (word "async"), word "function", maybe (mark "*"), maybe (name []),
    .ahead (mark "("), .must functionTail])

def template : Syntax :=
  let substitution :=
    row [.lexeme (.templateMark "$\x7b"), expressions, mark "\x7d"]
  .node .template (row [mark "`", .many (any [.lexeme .templateChars, substitution]),
    .lexeme (.templateMark "`")])

/-! ### Markup -/

def markupExpression : Syntax :=
  row [mark "\x7b", maybe (any [spread expression, expressions]), mark "\x7d"]

def markupName : Syntax :=
  row [.lexeme .markupName,
    any [row [mark ":", .lexeme .markupName], .many (row [mark ".", .lexeme .markupName])]]

def markupAttribute : Syntax :=
  let value := any [.lexeme .markupString, markupExpression, .symbol .element]
  any [markupExpression,
    row [.lexeme .markupName, maybe (row [mark ":", .lexeme .markupName]),
      maybe (row [mark "=", value])]]

def element : Syntax :=
  let child := any [.lexeme .markupText, .lexeme .reference, .symbol .element, markupExpression]
  let content := row [exact ">", .many child, exact "</", maybe markupName, exact ">"]
  .node .element (row [exact "<",
    any [content, row [markupName, .many markupAttribute, any [exact "/>", content]]]])

/-! ### Operands and operators -/

def arrowBody (p : Place) : Syntax :=
  .must (any [.symbol .block, .symbol (.expression p)])

def chainStart : Syntax :=
  any [.symbol .construction,
    .node .member (row [word "import", mark ".", name []]),
    row [word "import", .ahead (mark "(")],
    .lexeme (.oneOf ["this", "super", "true", "false", "null", "undefined"]),
    .symbol .function, .symbol .classDef,
    name expressionWords,
    .symbol .parens, .symbol .array, .symbol .object,
    .lexeme .string, .lexeme .number, .symbol .template, .lexeme .regex, .symbol .element]

def selections : List Syntax :=
  let property := any [name [], .lexeme .privateName]
  [.extend Tree.afterValue .member (row [any [mark ".", mark "?."], property]),
    .extend Tree.afterValue .subscript (row [maybe (mark "?."), mark "[", expressions, mark "]"]),
    .extend Tree.afterPrimary .call
      (row [mark "?.", .check Tree.settled arguments])]

def taggedTemplate : Syntax :=
  .extend Tree.afterTag .call (.symbol .template)

/-- `new` with what it constructs; the arguments after it are its own. -/
def construction : Syntax :=
  let target := row [word "new", mark ".", word "target"]
  let constructor := row [.symbol .chainStart, .many (any (taggedTemplate :: selections))]
  any [.node .member target,
    .node .new (row [word "new", .check Tree.settled constructor,
      maybe (.check Tree.settled arguments)])]

/-- A value with everything that follows it closely. -/
def chain (p : Place) : Syntax :=
  let call := .extend Tree.isCall .call arguments
  let sign := any [mark "++", mark "--"]
  let update := .extend Tree.afterValue .update (row [.ahead sign, goesOn p, sign])
  let arrow := .extend Tree.afterArrowHead .arrow (row [mark "=>", arrowBody p])
  let asyncArrow := .node .arrow
    (row [word "async", any [name [], parameters], mark "=>", arrowBody p])
  row [any [asyncArrow, .symbol .chainStart],
    .many (any (call :: taggedTemplate :: arrow :: update :: selections))]

def amendments : List Syntax :=
  ["+=", "-=", "*=", "/=", "%=", "^=", "&=", "|=", ">>=", ">>>=", "<<=", "**=", "&&=", "||=",
   "??="].map mark

def operand (p : Place) : Syntax :=
  let sub := .symbol (.operand p)
  let settledSub := .check Tree.settled sub
  let unary := .node .unary (row [
    any [mark "!", mark "~", mark "-", mark "+", word "typeof", word "void", word "delete",
      word "await"], settledSub])
  let update := .node .update (row [any [mark "++", mark "--"], settledSub])
  let yields := .node .unary (row [word "yield",
    any [row [mark "*", .symbol (.expression p)],
      row [goesOn p, .never (.lexeme (.oneOf relations)), .symbol (.expression p)],
      .nothing]])
  let assign := any [
    .extend Tree.afterAssignable .assign (row [mark "=", .symbol (.expression p)]),
    .extend Tree.afterAmendable .amend (row [any amendments, .symbol (.expression p)])]
  any [unary, update, yields,
    row [.lexeme .privateName, .ahead (word "in")],
    row [chain p, maybe assign]]

def operators (hasIn : Bool) : List Syntax :=
  (if hasIn then [word "in"] else []) ++ word "instanceof" ::
    ["&&", "||", "??", "===", "==", "!==", "!=", "<=", "<<", "<", ">>>", ">>", ">=", ">", "&", "^",
     "|", "+", "-", "*", "/", "%", "**"].map mark

def coveringAt (p : Place) : Syntax :=
  row [.symbol (.operand p),
    .many (.extend Tree.afterValue .binary
      (row [any (operators p.hasIn), .check Tree.settled (.symbol (.operand p))])),
    maybe (.extend Tree.afterValue .ternary
      (row [.lexeme .condition, expression, mark ":", .symbol (.expression p)]))]

/-! ### Statements -/

def binding : Syntax :=
  any [name [], .check Tree.isPattern (any [.symbol .array, .symbol .object])]

def declarators (hasIn : Bool) : Syntax :=
  let rest (afterValue : Bool) :=
    any [row [mark ",", .symbol (.declarators hasIn)], statementEnd afterValue]
  row [binding,
    any [row [mark "=", .symbol (.expression ⟨true, hasIn⟩), rest true], rest false]]

/-- The word `let` where it announces a declaration: unless one of these words follows. -/
def letWord (words : List String) : Syntax :=
  row [word "let", .never (.lexeme (.oneOf words))]

def lexical : Syntax :=
  let statementLet := row [letWord ["in", "instanceof"], .never (.lexeme (.statementEnd true))]
  row [any [word "const", statementLet], .symbol (.declarators true)]

def variableDeclaration : Syntax := row [word "var", .symbol (.declarators true)]

def functionDeclaration : Syntax :=
  row [maybe (word "async"), word "function", maybe (mark "*"), name [], .must functionTail]

def classDeclaration : Syntax :=
  row [.many decorator, word "class", name ["extends"], .must classTail]

def declaration : Syntax :=
  any [functionDeclaration, classDeclaration, lexical, variableDeclaration]

def expressionStatement : Syntax :=
  row [.never (.lexeme (.oneOf statementWords)), .symbol (.expressions atEnd), statementEnd true]

/-- What `for` goes through, up to the closing parenthesis. -/
def forEach : Syntax :=
  let start := any [
    row [word "var", binding,
      maybe (row [mark "=", .symbol (.expression ⟨false, false⟩)])],
    row [any [word "const", letWord relations], binding],
    .check (fun t => t.isAssignable) (chain ⟨false, false⟩)]
  row [mark "(", start, any [word "in", word "of"], expressions, mark ")"]

def forSteps : Syntax :=
  let start := any [row [any [word "const", letWord relations], .symbol (.declarators true)],
    variableDeclaration, row [expressions, mark ";"], mark ";"]
  row [mark "(", start, any [row [expressions, mark ";"], mark ";"], maybe expressions, mark ")"]

def forStatement : Syntax :=
  row [word "for", any [row [word "await", forEach], forEach, forSteps], .symbol .statement]

def tryStatement : Syntax :=
  let handler := row [word "catch", maybe (row [mark "(", binding, mark ")"]), .symbol .block]
  row [word "try", .symbol .block, maybe handler, maybe (row [word "finally", .symbol .block])]

def switchStatement : Syntax :=
  let statements := .many (row [.never (.lexeme (.oneOf ["case", "default"])), .symbol .statement])
  let label := any [row [word "case", expressions, mark ":"], row [word "default", mark ":"]]
  row [word "switch", condition, mark "\x7b", .many (.seq label statements), mark "\x7d"]

def jump : Syntax :=
  row [any [word "break", word "continue"],
    maybe (row [.never (.lexeme (.statementEnd false)), name []]), statementEnd false]

def returnStatement : Syntax :=
  row [word "return",
    any [row [.never (.lexeme (.statementEnd false)), .symbol (.expressions atEnd),
        statementEnd true],
      statementEnd false]]

def exportedName : Syntax := any [.lexeme .string, name []]

def renamed (r : Syntax) : Syntax := row [r, maybe (row [word "as", r])]

/-- Items in braces, with a comma after the last one or not. -/
def braced (r : Syntax) : Syntax :=
  row [mark "\x7b", maybe (.seq (listed r) (maybe (mark ","))), mark "\x7d"]

def source : Syntax := row [word "from", .lexeme .string]

def importStatement : Syntax :=
  let namespaceImport := row [mark "*", word "as", name []]
  let imports := any [namespaceImport,
    braced (any [row [exportedName, word "as", name []], name []])]
  let clause := any [imports, row [name [], maybe (row [mark ",", imports])]]
  row [word "import", any [.lexeme .string, row [clause, source]],
    maybe (row [word "with", .check Tree.settled (.symbol .object)]), statementEnd false]

def exportStatement : Syntax :=
  let clause := any [
    row [mark "*", maybe (row [word "as", exportedName]), source],
    row [braced (renamed exportedName), maybe source]]
  row [.many decorator, word "export",
    any [row [clause, statementEnd false],
      row [word "default", any [functionDeclaration, classDeclaration,
        row [.symbol (.expression atEnd), statementEnd true]]],
      declaration]]

def statement : Syntax :=
  row [.many (.lexeme .aside), .node .statement (any [
    .symbol .block, mark ";",
    variableDeclaration, lexical, functionDeclaration, classDeclaration,
    row [word "if", .must condition, .symbol .statement,
      maybe (row [word "else", .symbol .statement])],
    row [.ahead (word "for"), .must forStatement],
    row [word "while", .must condition, .symbol .statement],
    row [word "do", .symbol .statement, word "while", condition, maybe (statementEnd true)],
    row [.ahead (word "switch"), .must switchStatement],
    tryStatement,
    row [word "with", .must condition, .symbol .statement],
    jump,
    row [word "debugger", statementEnd false],
    returnStatement,
    row [word "throw", .symbol (.expressions atEnd), statementEnd true],
    importStatement, exportStatement,
    row [name (expressionWords ++ statementWords), mark ":", .symbol .statement],
    expressionStatement])]

def block : Syntax :=
  .node .block (row [mark "\x7b", .many (.symbol .statement), .many (.lexeme .aside), mark "\x7d"])

def program : Syntax :=
  .node .program (row [maybe (.lexeme .interpreterLine), .many (.symbol .statement),
    .many (.lexeme .aside), .lexeme .finish])

end Syntax

def Symbol.rule : Symbol → Syntax
  | program => Syntax.program
  | statement => Syntax.statement
  | block => Syntax.block
  | declarators hasIn => Syntax.declarators hasIn
  | expressions p => Syntax.listed (.symbol (.expression p))
  | expression p => .check Tree.settled (.symbol (.covering p))
  | covering p => Syntax.coveringAt p
  | operand p => Syntax.operand p
  | chainStart => Syntax.chainStart
  | construction => Syntax.construction
  | parens => Syntax.parens
  | array => Syntax.array
  | object => Syntax.object
  | function => Syntax.function
  | classDef => Syntax.classDef
  | member => Syntax.member
  | template => Syntax.template
  | element => Syntax.element

def grammar : Grammar Symbol Token where
  rule := Symbol.rule
  scan := Token.scan

end BundleMerge.Script
