import BundleMerge.Json.Fault
import BundleMerge.Json.Value

/-! Reading JSON text. Each reader takes the text that is left and gives back what it read and
the text after it. Fuel bounds the number of steps; `parse` gives enough for every text, since a
step that goes on has read a character or opens what the character before it announced. -/
namespace BundleMerge.Json

abbrev Read (α : Type) := Except Fault (α × List Char)

def isSpace (c : Char) : Bool :=
  c = ' ' || c = '\t' || c = '\n' || c = '\r'

def skipSpace (cs : List Char) : List Char :=
  cs.dropWhile isSpace

/-- The rest of a word whose first letter has been read. -/
def readWord : List Char → List Char → Except Fault (List Char)
  | [], cs => .ok cs
  | _ :: _, [] => .error (fault .endInValue [])
  | w :: ws, c :: cs => if c = w then readWord ws cs else .error (faultAhead .expectedIdent (c :: cs))

def digitValue (c : Char) : Nat :=
  c.toNat - 48

def maxNatural : Nat := Nat.pow 2 64 - 1

/-- Takes digits into a number as long as it stays below 2^64, and gives back the digits that are
left. -/
def gather (n : Nat) : List Char → Nat × List Char
  | [] => (n, [])
  | d :: ds =>
    if n * 10 + digitValue d ≤ maxNatural then gather (n * 10 + digitValue d) ds else (n, d :: ds)

def tenTo (n : Nat) : Binary64 :=
  (Binary64.ofRatio? false (Nat.pow 10 n) 1).getD .zero

/-- Multiplies by `10^e`, with the rounding of one multiplication or division, or of a few
divisions if `e` is below -308. -/
def scaleByTen (x : Binary64) (e : Int) : Nat → Option Binary64
  | 0 => some x
  | rounds + 1 =>
    if e.natAbs ≤ 308 then
      if 0 ≤ e then x.mul? (tenTo e.natAbs) else x.div? (tenTo e.natAbs)
    else if x.isZero then some x
    else if 0 ≤ e then none
    else match x.div? (tenTo 308) with
      | some y => scaleByTen y (e + 308) rounds
      | none => none

def signed (negative : Bool) (x : Binary64) : Binary64 :=
  if negative then x.neg else x

/-- A float that was read without its sign, unless it is out of range. -/
def floatOr (negative : Bool) (rest : List Char) : Option Binary64 → Read Number
  | some x => .ok (.float (signed negative x), rest)
  | none => .error (fault .numberOutOfRange rest)

/-- The float that a significand and a power of ten stand for. -/
def readFloat (negative : Bool) (significand : Nat) (e : Int) (rest : List Char) : Read Number :=
  floatOr negative rest ((Binary64.ofRatio? false significand 1).bind (scaleByTen · e 8))

/-- The digits of an exponent, as far as they stay below 2^31. -/
def gatherExponent (n : Nat) : List Char → Nat × List Char
  | [] => (n, [])
  | d :: ds =>
    if n * 10 + digitValue d < Nat.pow 2 31 then gatherExponent (n * 10 + digitValue d) ds
    else (n, d :: ds)

def readExponent (negative : Bool) (significand : Nat) (e : Int) (cs : List Char) : Read Number :=
  let (down, cs) := match cs with
    | '+' :: cs => (false, cs)
    | '-' :: cs => (true, cs)
    | cs => (false, cs)
  match cs with
  | [] => .error (fault .endInValue [])
  | c :: _ =>
    if !c.isDigit then .error (faultAhead .invalidNumber cs)
    else
      let (power, excess) := gatherExponent 0 (cs.takeWhile Char.isDigit)
      let rest := cs.dropWhile Char.isDigit
      if excess = [] then
        readFloat negative significand (if down then e - power else e + power) rest
      else if significand ≠ 0 && !down then
        .error (fault .numberOutOfRange (excess.drop 1 ++ rest))
      else .ok (.float (signed negative .zero), rest)

/-- What may follow the digits of a number that has a fraction or is a long one. -/
def readTail (negative : Bool) (significand : Nat) (e : Int) (cs : List Char) : Read Number :=
  match cs with
  | 'e' :: cs | 'E' :: cs => readExponent negative significand e cs
  | cs => readFloat negative significand e cs

def readFraction (negative : Bool) (significand : Nat) (e : Int) (cs : List Char) : Read Number :=
  let digits := cs.takeWhile Char.isDigit
  let rest := cs.dropWhile Char.isDigit
  if digits = [] then
    .error (if rest = [] then fault .endInValue [] else faultAhead .invalidNumber rest)
  else
    let (significand, excess) := gather significand digits
    readTail negative significand (e - (digits.length - excess.length : Nat)) rest

def readAfterDigits (negative : Bool) (significand : Nat) (excess cs : List Char) : Read Number :=
  match cs with
  | '.' :: cs => readFraction negative significand excess.length cs
  | 'e' :: _ | 'E' :: _ => readTail negative significand excess.length cs
  | cs =>
    if excess ≠ [] then readFloat negative significand excess.length cs
    else if !negative then .ok (.int significand, cs)
    else if significand = 0 || significand > Nat.pow 2 63 then readFloat true significand 0 cs
    else .ok (.int (-significand), cs)

def readNumber (negative : Bool) (cs : List Char) : Read Number :=
  match cs with
  | [] => .error (fault .endInValue [])
  | c :: after =>
    if c = '0' then
      if (after.head?.any Char.isDigit) then .error (faultAhead .invalidNumber after)
      else readAfterDigits negative 0 [] after
    else if c.isDigit then
      let (significand, excess) := gather 0 (cs.takeWhile Char.isDigit)
      readAfterDigits negative significand excess (cs.dropWhile Char.isDigit)
    else .error (faultAhead .invalidNumber cs)

def hexValue? (c : Char) : Option Nat :=
  if c.isDigit then some (c.toNat - 48)
  else if 'a' ≤ c && c ≤ 'f' then some (c.toNat - 87)
  else if 'A' ≤ c && c ≤ 'F' then some (c.toNat - 55)
  else none

def readHex (cs : List Char) : Read Nat :=
  if (utf8Bytes (cs.take 4)).length < 4 then .error (fault .endInString [])
  else match cs with
    | a :: b :: c :: d :: rest =>
      match hexValue? a, hexValue? b, hexValue? c, hexValue? d with
      | some a, some b, some c, some d => .ok (((a * 16 + b) * 16 + c) * 16 + d, rest)
      | _, _, _, _ => .error ⟨.invalidEscape, cs, 4⟩
    | _ => .error ⟨.invalidEscape, cs, 4⟩

/-- The second half of a character that is written as two units. -/
def readSecondHalf (first : Nat) (cs : List Char) : Read Char :=
  match cs with
  | [] => .error (fault .endInString [])
  | '\\' :: [] => .error (fault .endInString [])
  | '\\' :: 'u' :: cs =>
    match readHex cs with
    | .error f => .error f
    | .ok (second, rest) =>
      if second < 0xDC00 || second > 0xDFFF then .error (fault .loneSurrogate rest)
      else .ok (Char.ofNat ((first - 0xD800) * 0x400 + (second - 0xDC00) + 0x10000), rest)
  | '\\' :: cs => .error (faultAhead .hexEscapeEnd cs)
  | cs => .error (faultAhead .hexEscapeEnd cs)

def readEscape (cs : List Char) : Read Char :=
  match cs with
  | [] => .error (fault .endInString [])
  | 'u' :: cs =>
    match readHex cs with
    | .error f => .error f
    | .ok (unit, rest) =>
      if 0xDC00 ≤ unit && unit ≤ 0xDFFF then .error (fault .loneSurrogate rest)
      else if 0xD800 ≤ unit && unit ≤ 0xDBFF then readSecondHalf unit rest
      else .ok (Char.ofNat unit, rest)
  | '"' :: cs => .ok ('"', cs)
  | '\\' :: cs => .ok ('\\', cs)
  | '/' :: cs => .ok ('/', cs)
  | 'b' :: cs => .ok (Char.ofNat 8, cs)
  | 'f' :: cs => .ok (Char.ofNat 12, cs)
  | 'n' :: cs => .ok ('\n', cs)
  | 'r' :: cs => .ok ('\r', cs)
  | 't' :: cs => .ok ('\t', cs)
  | cs => .error (faultAhead .invalidEscape cs)

def readChars : Nat → List Char → Read (List Char)
  | 0, cs => .error (fault .endInString cs)
  | _, [] => .error (fault .endInString [])
  | fuel + 1, c :: cs =>
    if c = '"' then .ok ([], cs)
    else if c = '\\' then
      match readEscape cs with
      | .error f => .error f
      | .ok (c, cs) => (readChars fuel cs).map fun (text, rest) => (c :: text, rest)
    else if c.toNat < 32 then .error (faultAhead .controlCharacter (c :: cs))
    else (readChars fuel cs).map fun (text, rest) => (c :: text, rest)

def readString (cs : List Char) : Read String :=
  (readChars (cs.length + 1) cs).map fun (text, rest) => (String.ofList text, rest)

mutual

/-- A value that may open `depth - 1` brackets, one in the other. -/
def readValue : Nat → Nat → List Char → Read Json
  | 0, _, cs => .error (fault .tooDeep cs)
  | fuel + 1, depth, cs =>
    match skipSpace cs with
    | [] => .error (faultAhead .endInValue [])
    | 'n' :: cs => (readWord ['u', 'l', 'l'] cs).map fun rest => (.null, rest)
    | 't' :: cs => (readWord ['r', 'u', 'e'] cs).map fun rest => (.bool true, rest)
    | 'f' :: cs => (readWord ['a', 'l', 's', 'e'] cs).map fun rest => (.bool false, rest)
    | '-' :: cs => (readNumber true cs).map fun (n, rest) => (.number n, rest)
    | '"' :: cs => (readString cs).map fun (s, rest) => (.string s, rest)
    | '[' :: cs =>
      if depth ≤ 1 then .error (faultAhead .tooDeep ('[' :: cs))
      else (readItems fuel (depth - 1) true cs).map fun (items, rest) => (.array items, rest)
    | '{' :: cs =>
      if depth ≤ 1 then .error (faultAhead .tooDeep ('{' :: cs))
      else (readFields fuel (depth - 1) true [] cs).map fun (fields, rest) => (.object fields, rest)
    | c :: cs =>
      if c.isDigit then (readNumber false (c :: cs)).map fun (n, rest) => (.number n, rest)
      else .error (faultAhead .expectedValue (c :: cs))

def readItems : Nat → Nat → Bool → List Char → Read (List Json)
  | 0, _, _, cs => .error (fault .tooDeep cs)
  | fuel + 1, depth, first, cs =>
    let item (cs : List Char) : Read (List Json) :=
      match readValue fuel depth cs with
      | .error f => .error f
      | .ok (v, rest) => (readItems fuel depth false rest).map fun (vs, rest) => (v :: vs, rest)
    match skipSpace cs with
    | [] => .error (faultAhead .endInList [])
    | ']' :: rest => .ok ([], rest)
    | c :: rest =>
      if first then item (c :: rest)
      else if c = ',' then
        match skipSpace rest with
        | [] => .error (faultAhead .endInValue [])
        | ']' :: rest => .error (faultAhead .trailingComma (']' :: rest))
        | cs => item cs
      else .error (faultAhead .expectedItemEnd (c :: rest))

/-- The fields that are left of an object, put into those read so far, and its closing brace. -/
def readFields : Nat → Nat → Bool → Fields → List Char → Read Fields
  | 0, _, _, _, cs => .error (fault .tooDeep cs)
  | fuel + 1, depth, first, read, cs =>
    let field (cs : List Char) : Read Fields :=
      match readString cs with
      | .error f => .error f
      | .ok (key, rest) =>
        match skipSpace rest with
        | [] => .error (faultAhead .endInObject [])
        | ':' :: rest =>
          match readValue fuel depth rest with
          | .error f => .error f
          | .ok (v, rest) => readFields fuel depth false (read.insert key v) rest
        | rest => .error (faultAhead .expectedColon rest)
    match skipSpace cs with
    | [] => .error (faultAhead .endInObject [])
    | '}' :: rest => .ok (read, rest)
    | c :: rest =>
      if first then
        if c = '"' then field rest else .error (faultAhead .keyNotString (c :: rest))
      else if c = ',' then
        match skipSpace rest with
        | [] => .error (faultAhead .endInValue [])
        | '"' :: rest => field rest
        | '}' :: rest => .error (faultAhead .trailingComma ('}' :: rest))
        | rest => .error (faultAhead .keyNotString rest)
      else .error (faultAhead .expectedFieldEnd (c :: rest))

end

/-- The depth at which a bracket is refused. -/
def depthLimit : Nat := 128

/-- One value and nothing but blanks around it. -/
def readAll (cs : List Char) : Except Fault Json :=
  match readValue (2 * cs.length + 2) depthLimit cs with
  | .error f => .error f
  | .ok (v, rest) =>
    match skipSpace rest with
    | [] => .ok v
    | rest => .error (faultAhead .trailingCharacters rest)

def parse (text : String) : Except Error Json :=
  (readAll text.toList).mapError (·.locate text.toList)

end BundleMerge.Json
