import BundleMerge.Asset
import BundleMerge.Json.Printer
import BundleMerge.Json.Skip
import BundleMerge.Text.Quoted

/-! Notifications in JSON: an object with the fields `file` and `type`, or an array of the two.
They are read without building the JSON value, so the first thing that does not fit is reported,
whatever follows it. -/
namespace BundleMerge.Notification

open Json (Fault Read fault faultAhead skipSpace)

def json (n : Notification) : Json :=
  .object [("file", .string n.file.text), ("type", .string n.role.label)]

def numberText : Json.Number → String
  | .int n => "integer `" ++ toString n ++ "`"
  | .float x => "floating point `" ++ String.ofList (Json.Number.write (.float x)) ++ "`"

def unexpected (expected : String) (cs : List Char) : Fault :=
  let found (what : String) (rest : List Char) : Fault :=
    fault (.unfit ("invalid type: " ++ what ++ ", expected " ++ expected)) rest
  let word (w : List Char) (what : String) (rest : List Char) : Fault :=
    match Json.readWord w rest with
    | .error f => f
    | .ok rest => found what rest
  let number (negative : Bool) (cs : List Char) : Fault :=
    match Json.readNumber negative cs with
    | .error f => f
    | .ok (n, rest) => found (numberText n) rest
  match cs with
  | [] => faultAhead .endInValue []
  | 'n' :: rest => word ['u', 'l', 'l'] "null" rest
  | 't' :: rest => word ['r', 'u', 'e'] "boolean `true`" rest
  | 'f' :: rest => word ['a', 'l', 's', 'e'] "boolean `false`" rest
  | '-' :: rest => number true rest
  | '"' :: rest =>
    match Json.readString rest with
    | .error f => f
    | .ok (s, rest) => found ("string " ++ Text.quoted s) rest
  | '[' :: _ => found "sequence" cs
  | '{' :: _ => found "map" cs
  | c :: _ => if c.isDigit then number false cs else faultAhead .expectedValue cs

def readPath (cs : List Char) : Read Path :=
  match skipSpace cs with
  | '"' :: rest => (Json.readString rest).map fun (s, rest) => (⟨s⟩, rest)
  | cs => .error (unexpected "path string" cs)

def unknownRole (s : String) : String :=
  "unknown variant `" ++ s ++ "`, expected one of " ++
    ", ".intercalate (AssetRole.all.map fun r => "`" ++ r.label ++ "`")

/-- The label of a role, after its opening quote. -/
def readLabel (cs : List Char) : Read AssetRole :=
  match Json.readString cs with
  | .error f => .error f
  | .ok (s, rest) =>
    match AssetRole.ofLabel? s with
    | some r => .ok (r, rest)
    | none => .error (fault (.unfit (unknownRole s)) rest)

def readColon (cs : List Char) : Except Fault (List Char) :=
  match skipSpace cs with
  | [] => .error (faultAhead .endInObject [])
  | ':' :: rest => .ok rest
  | cs => .error (faultAhead .expectedColon cs)

def readNothing (cs : List Char) : Except Fault (List Char) :=
  match skipSpace cs with
  | 'n' :: rest => Json.readWord ['u', 'l', 'l'] rest
  | cs => .error (unexpected "unit" cs)

/-- A role as the key of an object with the value `null`, after the opening brace. -/
def readTagged (cs : List Char) : Except Fault (AssetRole × List Char) :=
  match skipSpace cs with
  | '"' :: rest => do
    let (r, rest) ← readLabel rest
    let rest ← readNothing (← readColon rest)
    match skipSpace rest with
    | '}' :: rest => .ok (r, rest)
    | [] => .error (fault .endInObject [])
    | cs => .error (fault .expectedValue cs)
  | cs => .error (unexpected "variant identifier" cs)

def readRole (cs : List Char) : Read AssetRole :=
  match skipSpace cs with
  | [] => .error (faultAhead .endInValue [])
  | '"' :: rest => readLabel rest
  | '{' :: rest => readTagged rest
  | cs => .error (faultAhead .expectedValue cs)

/-- The fault of an object, found where its next field would start. -/
def objectFault (text : String) (cs : List Char) : Fault :=
  match skipSpace cs with
  | '}' :: rest => fault (.unfit text) rest
  | cs => fault (.unfit text) cs

/-- The notification that the fields make, at the end of the object. -/
def ofFields (file : Option Path) (role : Option AssetRole) (rest : List Char) :
    Read Notification :=
  match file, role with
  | none, _ => .error (fault (.unfit "missing field `file`") rest)
  | _, none => .error (fault (.unfit "missing field `type`") rest)
  | some file, some role => .ok (⟨file, role⟩, rest)

def readFields : Nat → Bool → Option Path → Option AssetRole → List Char → Read Notification
  | 0, _, _, _, cs => .error (fault .tooDeep cs)
  | fuel + 1, first, file, role, cs =>
    let field (cs : List Char) : Except Fault (Notification × List Char) := do
      let (key, rest) ← Json.readString cs
      match key with
      | "file" =>
        if file.isSome then .error (objectFault "duplicate field `file`" rest)
        else
          let (p, rest) ← readPath (← readColon rest)
          readFields fuel false (some p) role rest
      | "type" =>
        if role.isSome then .error (objectFault "duplicate field `type`" rest)
        else
          let (r, rest) ← readRole (← readColon rest)
          readFields fuel false file (some r) rest
      | _ => readFields fuel false file role (← Json.skip (← readColon rest))
    match skipSpace cs with
    | [] => .error (faultAhead .endInObject [])
    | '}' :: rest => ofFields file role rest
    | c :: rest =>
      if first then
        if c = '"' then field rest else .error (faultAhead .keyNotString (c :: rest))
      else if c = ',' then
        match skipSpace rest with
        | [] => .error (faultAhead .endInValue [])
        | '"' :: rest => field rest
        | '}' :: rest => .error (faultAhead .trailingComma ('}' :: rest))
        | rest => .error (faultAhead .keyNotString rest)
      else .error (faultAhead .expectedFieldEnd (c :: rest))

def wrongLength (n : Nat) (rest : List Char) : Fault :=
  fault (.unfit ("invalid length " ++ toString n ++
    ", expected struct Notification with 2 elements")) rest

/-- The end of an array after its two items. -/
def readEnd (cs : List Char) : Except Fault (List Char) :=
  match skipSpace cs with
  | [] => .error (faultAhead .endInList [])
  | ']' :: rest => .ok rest
  | ',' :: rest =>
    match skipSpace rest with
    | ']' :: rest => .error (faultAhead .trailingComma (']' :: rest))
    | rest => .error (faultAhead .trailingCharacters rest)
  | cs => .error (faultAhead .trailingCharacters cs)

def readItems (cs : List Char) : Except Fault (Notification × List Char) :=
  match skipSpace cs with
  | [] => .error (faultAhead .endInList [])
  | ']' :: rest => .error (wrongLength 0 rest)
  | cs => do
    let (file, rest) ← readPath cs
    match skipSpace rest with
    | [] => .error (faultAhead .endInList [])
    | ']' :: rest => .error (wrongLength 1 rest)
    | ',' :: rest =>
      match skipSpace rest with
      | [] => .error (faultAhead .endInValue [])
      | ']' :: rest => .error (faultAhead .trailingComma (']' :: rest))
      | cs => do
        let (role, rest) ← readRole cs
        pure (⟨file, role⟩, ← readEnd rest)
    | rest => .error (faultAhead .expectedItemEnd rest)

def readAll (cs : List Char) : Except Fault Notification := do
  let (n, rest) ← match skipSpace cs with
    | '[' :: rest => readItems rest
    | '{' :: rest => readFields (rest.length + 1) true none none rest
    | cs => .error (unexpected "struct Notification" cs)
  match skipSpace rest with
  | [] => .ok n
  | rest => .error (faultAhead .trailingCharacters rest)

def parse (text : String) : Except Json.Error Notification :=
  (readAll text.toList).mapError (·.locate text.toList)

end BundleMerge.Notification
