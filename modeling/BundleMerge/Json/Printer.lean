import BundleMerge.Json.Value
import BundleMerge.Number.Shortest

/-! The text of JSON values: on one line without blanks, or with one field or item a line. -/
namespace BundleMerge.Json

/-- Powers of ten from -5 to 15 are written positionally. -/
def numberLayout : Decimal.Layout := ⟨-5, 15⟩

def writeInt (n : Int) : List Char :=
  (if n < 0 then ['-'] else []) ++ Nat.toDigits 10 n.natAbs

def Number.write : Number → List Char
  | .int n => writeInt n
  | .float x => x.write numberLayout

def hexDigit (n : Nat) : Char :=
  Char.ofNat (if n < 10 then 48 + n else 87 + n)

/-- Quotes, backslashes and control characters are escaped; every other character stands as it
is. -/
def escapeChar (c : Char) : List Char :=
  if c = '"' then ['\\', '"']
  else if c = '\\' then ['\\', '\\']
  else if c.toNat = 8 then ['\\', 'b']
  else if c.toNat = 9 then ['\\', 't']
  else if c.toNat = 10 then ['\\', 'n']
  else if c.toNat = 12 then ['\\', 'f']
  else if c.toNat = 13 then ['\\', 'r']
  else if c.toNat < 32 then ['\\', 'u', '0', '0', hexDigit (c.toNat / 16), hexDigit (c.toNat % 16)]
  else [c]

def writeString (s : String) : List Char :=
  '"' :: s.toList.flatMap escapeChar ++ ['"']

/-- What stands before an item at a depth, and after the name of a field. -/
structure Layout where
  lead : Nat → List Char
  colon : List Char

def compact : Layout := ⟨fun _ => [], [':']⟩

def pretty : Layout := ⟨fun depth => '\n' :: List.replicate (2 * depth) ' ', [':', ' ']⟩

mutual

def writeAt (l : Layout) (depth : Nat) : Json → List Char
  | .null => ['n', 'u', 'l', 'l']
  | .bool true => ['t', 'r', 'u', 'e']
  | .bool false => ['f', 'a', 'l', 's', 'e']
  | .number n => n.write
  | .string s => writeString s
  | .array [] => ['[', ']']
  | .array (item :: items) =>
    '[' :: l.lead (depth + 1) ++ writeAt l (depth + 1) item ++ writeItems l (depth + 1) items ++
      l.lead depth ++ [']']
  | .object [] => ['{', '}']
  | .object ((key, value) :: fields) =>
    '{' :: l.lead (depth + 1) ++ writeString key ++ l.colon ++ writeAt l (depth + 1) value ++
      writeFields l (depth + 1) fields ++ l.lead depth ++ ['}']

def writeItems (l : Layout) (depth : Nat) : List Json → List Char
  | [] => []
  | item :: items => ',' :: l.lead depth ++ writeAt l depth item ++ writeItems l depth items

def writeFields (l : Layout) (depth : Nat) : List (String × Json) → List Char
  | [] => []
  | (key, value) :: fields =>
    ',' :: l.lead depth ++ writeString key ++ l.colon ++ writeAt l depth value ++
      writeFields l depth fields

end

def write (l : Layout) (v : Json) : String :=
  String.ofList (writeAt l 0 v)

end BundleMerge.Json
