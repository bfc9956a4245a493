import BundleMerge.Script.Gap
import BundleMerge.Script.Tree

/-! Rules of a grammar, and how a text is read by them. Choices are ordered: the second way is
tried where the first one misses. A rule that reads something builds trees from it, and the trees
spell what was read. -/
namespace BundleMerge.Script

/-- Rules over the symbols of a grammar and the classes of its lexemes. -/
inductive Rule (Symbol Class : Type) where
  /-- A lexeme, after blanks and comments. -/
  | lexeme (c : Class)
  | nothing
  | seq (first second : Rule Symbol Class)
  | alt (first second : Rule Symbol Class)
  /-- As often as it can be read. The rule must not read nothing. -/
  | many (r : Rule Symbol Class)
  /-- Reads nothing, where the rule could be read. -/
  | ahead (r : Rule Symbol Class)
  /-- Reads nothing, where the rule could not be read. -/
  | never (r : Rule Symbol Class)
  | symbol (s : Symbol)
  /-- What the rule reads, as one tree. -/
  | node (k : Kind) (r : Rule Symbol Class)
  /-- The tree read last and what the rule reads, as one tree, if they fit together. -/
  | extend (fit : List Tree → Bool) (k : Kind) (r : Rule Symbol Class)
  /-- What the rule reads, if every tree of it is fit. -/
  | check (fit : Tree → Bool) (r : Rule Symbol Class)
  /-- Where this rule misses, nothing else is tried. -/
  | must (r : Rule Symbol Class)

/-- The text that is left, parted into the blanks and comments at its start and the rest. -/
structure Spot where
  lead : List Char
  next : List Char

namespace Spot

def of (cs : List Char) : Spot :=
  ⟨cs.take (gapLength cs), cs.drop (gapLength cs)⟩

def here (s : Spot) : List Char :=
  s.lead ++ s.next

end Spot

/-- What a lexeme class finds at a spot: a leaf, and the text after it. -/
abbrev Scan (Class : Type) := Class → Spot → Option (Tree × List Char)

structure Grammar (Symbol Class : Type) where
  rule : Symbol → Rule Symbol Class
  scan : Scan Class

inductive Outcome where
  /-- The trees read so far, the last one first, and where reading goes on. -/
  | read (trees : List Tree) (s : Spot)
  | miss
  /-- A miss that no other choice can mend. -/
  | stuck
  | spent

namespace Outcome

def andThen (o : Outcome) (k : List Tree → Spot → Outcome) : Outcome :=
  match o with
  | read trees s => k trees s
  | miss => miss
  | stuck => stuck
  | spent => spent

end Outcome

/-- Reads a rule at a spot, on top of the trees that were read before it. Fuel bounds the depth
of the reading. -/
def Grammar.run {Symbol Class : Type} (g : Grammar Symbol Class) :
    Nat → Rule Symbol Class → List Tree → Spot → Outcome
  | 0, _, _, _ => .spent
  | fuel + 1, r, trees, s =>
    match r with
    | .lexeme c =>
      match g.scan c s with
      | some (leaf, rest) => .read (leaf :: trees) (.of rest)
      | none => .miss
    | .nothing => .read trees s
    | .seq first second => (g.run fuel first trees s).andThen (g.run fuel second)
    | .alt first second =>
      match g.run fuel first trees s with
      | .miss => g.run fuel second trees s
      | o => o
    | .many r =>
      match g.run fuel r trees s with
      | .read trees s => g.run fuel (.many r) trees s
      | .miss => .read trees s
      | o => o
    | .ahead r =>
      match g.run fuel r [] s with
      | .read .. => .read trees s
      | .spent => .spent
      | _ => .miss
    | .never r =>
      match g.run fuel r [] s with
      | .read .. => .miss
      | .spent => .spent
      | _ => .read trees s
    | .symbol x => g.run fuel (g.rule x) trees s
    | .node k r =>
      (g.run fuel r [] s).andThen fun ts s => .read (.node k ts.reverse :: trees) s
    | .extend fit k r =>
      match trees with
      | t :: trees =>
        (g.run fuel r [t] s).andThen fun ts s =>
          if fit ts.reverse then .read (.node k ts.reverse :: trees) s else .miss
      | [] => .miss
    | .check fit r =>
      (g.run fuel r [] s).andThen fun ts s =>
        if ts.all fit then .read (ts ++ trees) s else .miss
    | .must r =>
      match g.run fuel r trees s with
      | .miss => .stuck
      | o => o

end BundleMerge.Script
