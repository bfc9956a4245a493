import BundleMerge.Script.Grammar

/-! Reading a script as a tree. -/
namespace BundleMerge.Script

/-- Fuel that reading a script of a length does not use up. -/
def readingDepth (length : Nat) : Nat :=
  1000 * (length + 1)

def parse (script : List Char) : Option Tree :=
  match grammar.run (readingDepth script.length) (.symbol .program) [] (.of script) with
  | .read [t] _ => some t
  | _ => none

end BundleMerge.Script
