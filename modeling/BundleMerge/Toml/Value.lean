import BundleMerge.Number.Binary64

/-! Values of TOML documents. Keys and values remember where they start, as the text that is left
from there on. -/
namespace BundleMerge.Toml

inductive Float where
  | finite (x : Binary64)
  | infinite (negative : Bool)
  | nan
  deriving Repr, DecidableEq

inductive Scalar where
  | string (s : String)
  | integer (n : Int)
  | float (x : Float)
  | boolean (b : Bool)
  | date
  deriving Repr, DecidableEq

structure Key where
  name : String
  start : List Char
  deriving Repr, DecidableEq

/-- How a table came about. -/
inductive Form where
  | inline
  /-- Under a header of its own. -/
  | header
  /-- On the way to a table with a header. -/
  | implied
  /-- On the way along a dotted key. -/
  | dotted
  deriving Repr, DecidableEq

inductive Value where
  | scalar (s : Scalar) (start : List Char)
  | array (items : List Value) (start : List Char)
  /-- A table that is only implied starts nowhere. -/
  | table (form : Form) (entries : List (Key × Value)) (start : Option (List Char))
  /-- The tables of an array, each under a header. -/
  | tables (items : List Value)

abbrev Entries := List (Key × Value)

instance : Inhabited Value := ⟨.tables []⟩

namespace Value

/-- Where a value starts, if it starts anywhere. -/
def start? : Value → Option (List Char)
  | scalar _ start | array _ start => some start
  | table _ _ start => start
  | tables (table _ _ start :: _) => start
  | tables _ => none

end Value

def Entries.get? (entries : Entries) (name : String) : Option Value :=
  (entries.find? (·.1.name = name)).map (·.2)

def Entries.contains (entries : Entries) (name : String) : Bool :=
  entries.any (·.1.name = name)

/-- The line of a place in a text, counted from one. The place is the text left from there on. -/
def lineOf (text rest : List Char) : Nat :=
  (text.take (text.length - rest.length)).count '\n' + 1

end BundleMerge.Toml
