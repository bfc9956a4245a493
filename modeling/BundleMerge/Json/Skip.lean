import BundleMerge.Json.Reader

/-! Skipping a JSON value that nobody asks for. Its texts need not make sense, and there is no
limit to how deep it is. -/
namespace BundleMerge.Json

/-- What is open around a place. -/
inductive Bracket where
  | list
  | object
  deriving Repr, DecidableEq

abbrev Skip := Except Fault (List Char)

/-- The rest of a text up to its closing quote. Escaped units need not be characters. -/
def skipChars : Nat → List Char → Skip
  | 0, cs => .error (fault .endInString cs)
  | _, [] => .error (fault .endInString [])
  | fuel + 1, c :: cs =>
    if c = '"' then .ok cs
    else if c = '\\' then
      match cs with
      | [] => .error (fault .endInString [])
      | 'u' :: cs =>
        match readHex cs with
        | .error f => .error f
        | .ok (_, rest) => skipChars fuel rest
      | c :: rest =>
        if "\"\\/bfnrt".toList.contains c then skipChars fuel rest
        else .error (faultAhead .invalidEscape (c :: rest))
    else if c.toNat < 32 then .error (fault .controlCharacter (c :: cs))
    else skipChars fuel cs

def skipExponent (cs : List Char) : Skip :=
  let digits := match cs with
    | '+' :: cs | '-' :: cs => cs
    | cs => cs
  if digits.head?.any Char.isDigit then .ok (digits.dropWhile Char.isDigit)
  else .error (faultAhead .invalidNumber digits)

def skipFraction (cs : List Char) : Skip :=
  match cs with
  | '.' :: cs =>
    if cs.head?.any Char.isDigit then
      match cs.dropWhile Char.isDigit with
      | 'e' :: cs | 'E' :: cs => skipExponent cs
      | cs => .ok cs
    else .error (faultAhead .invalidNumber cs)
  | 'e' :: cs | 'E' :: cs => skipExponent cs
  | cs => .ok cs

def skipNumber (cs : List Char) : Skip :=
  match cs with
  | '0' :: cs =>
    if cs.head?.any Char.isDigit then .error (faultAhead .invalidNumber cs) else skipFraction cs
  | cs =>
    if cs.head?.any Char.isDigit then skipFraction (cs.dropWhile Char.isDigit)
    else .error (faultAhead .invalidNumber cs)

/-- A value that opens no bracket; nothing, if one is opened. -/
def skipScalar? (cs : List Char) : Option Skip :=
  match cs with
  | [] => some (.error (faultAhead .endInValue []))
  | '[' :: _ | '{' :: _ => none
  | 'n' :: cs => some (readWord ['u', 'l', 'l'] cs)
  | 't' :: cs => some (readWord ['r', 'u', 'e'] cs)
  | 'f' :: cs => some (readWord ['a', 'l', 's', 'e'] cs)
  | '-' :: cs => some (skipNumber cs)
  | '"' :: cs => some (skipChars (cs.length + 1) cs)
  | c :: cs =>
    some (if c.isDigit then skipNumber (c :: cs) else .error (faultAhead .expectedValue (c :: cs)))

def skipKey (cs : List Char) : Skip :=
  match skipSpace cs with
  | [] => .error (faultAhead .endInObject [])
  | '"' :: cs =>
    match skipChars (cs.length + 1) cs with
    | .error f => .error f
    | .ok rest =>
      match skipSpace rest with
      | [] => .error (faultAhead .endInObject [])
      | ':' :: rest => .ok rest
      | rest => .error (faultAhead .expectedColon rest)
  | cs => .error (faultAhead .keyNotString cs)

mutual

/-- A value within the brackets that are open, and what follows it until they are closed. -/
def skipValue : Nat → List Bracket → List Char → Skip
  | 0, _, cs => .error (fault .tooDeep cs)
  | fuel + 1, around, cs =>
    match skipSpace cs with
    | '[' :: rest => skipMore fuel false (.list :: around) rest
    | '{' :: rest => skipMore fuel false (.object :: around) rest
    | cs =>
      match skipScalar? cs with
      | some (.ok rest) => skipMore fuel true around rest
      | some (.error f) => .error f
      | none => .error (faultAhead .expectedValue cs)

/-- What follows within the brackets that are open: after a value if `comma`, or else right after
a bracket is opened. -/
def skipMore : Nat → Bool → List Bracket → List Char → Skip
  | 0, _, _, cs => .error (fault .tooDeep cs)
  | _, _, [], cs => .ok cs
  | fuel + 1, comma, bracket :: around, cs =>
    match skipSpace cs, bracket with
    | [], .list => .error (faultAhead .endInList [])
    | [], .object => .error (faultAhead .endInObject [])
    | ']' :: rest, .list | '}' :: rest, .object => skipMore fuel true around rest
    | ',' :: rest, _ =>
      if comma then skipNext fuel bracket around rest else skipNext fuel bracket around (',' :: rest)
    | cs, .list => if comma then .error (faultAhead .expectedItemEnd cs) else
        skipNext fuel .list around cs
    | cs, .object => if comma then .error (faultAhead .expectedFieldEnd cs) else
        skipNext fuel .object around cs

def skipNext : Nat → Bracket → List Bracket → List Char → Skip
  | 0, _, _, cs => .error (fault .tooDeep cs)
  | fuel + 1, .list, around, cs => skipValue fuel (.list :: around) cs
  | fuel + 1, .object, around, cs =>
    match skipKey cs with
    | .error f => .error f
    | .ok rest => skipValue fuel (.object :: around) rest

end

def skip (cs : List Char) : Skip :=
  skipValue (3 * cs.length + 3) [] cs

end BundleMerge.Json
