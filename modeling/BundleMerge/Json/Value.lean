import BundleMerge.Number.Binary64

/-! JSON values. The fields of an object keep the order in which they were first written, and
`insert` keeps every key once. Equality of values, `sameAs`, does not look at that order. -/
namespace BundleMerge

/-- Integers and floats are told apart: an integer equals no float. -/
inductive Json.Number where
  | int (n : Int)
  | float (x : Binary64)
  deriving Repr, DecidableEq

inductive Json where
  | null
  | bool (b : Bool)
  | number (n : Json.Number)
  | string (s : String)
  | array (items : List Json)
  | object (fields : List (String × Json))

namespace Json

abbrev Fields := List (String × Json)

instance : Inhabited Json := ⟨.null⟩

namespace Fields

def get? (fields : Fields) (key : String) : Option Json :=
  List.lookup key fields

def contains (fields : Fields) (key : String) : Bool :=
  fields.any (·.1 = key)

def keys (fields : Fields) : List String :=
  fields.map (·.1)

/-- Sets the value of a key where the key stands, or appends the key. -/
def insert (fields : Fields) (key : String) (value : Json) : Fields :=
  match fields with
  | [] => [(key, value)]
  | field :: rest =>
    if field.1 = key then (key, value) :: rest else field :: Fields.insert rest key value

def erase (fields : Fields) (key : String) : Fields :=
  fields.filter (·.1 ≠ key)

end Fields

def Number.sameAs : Number → Number → Bool
  | .int m, .int n => m = n
  | .float x, .float y => x.sameAs y
  | _, _ => false

mutual

/-- Equality of values, whatever the order of the fields of an object. -/
def sameAs : Json → Json → Bool
  | .null, .null => true
  | .bool a, .bool b => a = b
  | .number a, .number b => a.sameAs b
  | .string a, .string b => a = b
  | .array as, .array bs => sameItems as bs
  | .object as, .object bs => as.length = bs.length && sameFields as bs
  | _, _ => false

def sameItems : List Json → List Json → Bool
  | [], [] => true
  | a :: as, b :: bs => sameAs a b && sameItems as bs
  | _, _ => false

def sameFields : List (String × Json) → List (String × Json) → Bool
  | [], _ => true
  | (key, a) :: as, bs =>
    (match List.lookup key bs with
      | some b => sameAs a b
      | none => false) && sameFields as bs

end

/-- The field of an object; a value of another kind has none. -/
def get? (key : String) : Json → Option Json
  | .object fields => Fields.get? fields key
  | _ => none

def items? : Json → Option (List Json)
  | .array items => some items
  | _ => none

/-- Whether a condition takes the value for true: not `null`, `false`, a zero or an empty text. -/
def isTruthy : Json → Bool
  | .null => false
  | .bool b => b
  | .number (.int n) => n ≠ 0
  | .number (.float x) => !x.isZero
  | .string s => !s.isEmpty
  | .array _ | .object _ => true

def kind : Json → String
  | .null => "null"
  | .bool _ => "a boolean"
  | .number _ => "a number"
  | .string _ => "a string"
  | .array _ => "an array"
  | .object _ => "an object"

end Json
end BundleMerge
