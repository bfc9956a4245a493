import BundleMerge.Toml.Scalar

/-! Documents: arrays, tables in braces, and tables under headers. No key is set twice, and no
table is added to once it is closed. -/
namespace BundleMerge.Toml

/-- Changes the table that keys lead to, and makes the tables on the way that are not there yet.
Along a dotted key, a table with a header of its own is closed. Nothing leads into a table in
braces or a plain value. -/
def descend {α : Type} (dotted : Bool) (change : Form → Entries → Option (α × Entries)) :
    List Key → Form → Entries → Option (α × Entries)
  | [], form, entries => change form entries
  | key :: keys, _, entries =>
    let replace (v : Value) : Entries :=
      entries.map fun e => if e.1.name = key.name then (e.1, v) else e
    match entries.get? key.name with
    | none =>
      let form := if dotted then .dotted else .implied
      (descend dotted change keys form []).map fun (a, es) =>
        (a, entries ++ [(key, .table form es none)])
    | some (.table form es start) =>
      if form = .inline || (dotted && form = .header) then none
      else (descend dotted change keys form es).map fun (a, es) =>
        (a, replace (.table form es start))
    | some (.tables items) =>
      match items.getLast? with
      | some (.table form es start) =>
        (descend dotted change keys form es).map fun (a, es) =>
          (a, replace (.tables (items.dropLast ++ [.table form es start])))
      | _ => none
    | some _ => none

def addEntry (key : Key) (v : Value) (entries : Entries) : Option Entries :=
  if entries.contains key.name then none else some (entries ++ [(key, v)])

/-- Sets a value in a table along a dotted key. A table that was not made by dotted keys is not
added to by one. -/
def addAlong (keys : List Key) (v : Value) (form : Form) (entries : Entries) : Option Entries :=
  match keys.getLast? with
  | none => none
  | some key =>
    let path := keys.dropLast
    let change (form : Form) (entries : Entries) : Option (Unit × Entries) :=
      if decide (form = .dotted) = path.isEmpty then none
      else (addEntry key v entries).map fun es => ((), es)
    (descend true change path form entries).map (·.2)

/-! ### Values -/

/-- The text after blanks, comments and line ends. -/
def skipLines : Nat → List Char → Except (List Char) (List Char)
  | 0, cs => .error cs
  | fuel + 1, cs =>
    match skipSpace cs with
    | '#' :: rest =>
      match newline? (skipComment ('#' :: rest)) with
      | some rest => skipLines fuel rest
      | none => .error (skipComment ('#' :: rest))
    | cs =>
      match newline? cs with
      | some rest => skipLines fuel rest
      | none => .ok cs

mutual

/-- A value that may open `depth - 1` brackets, one in the other. -/
def readValue : Nat → Nat → List Char → Read Value
  | 0, _, cs => .error cs
  | fuel + 1, depth, cs =>
    match cs with
    | '[' :: rest =>
      if depth ≤ 1 then .error cs
      else (readItems fuel (depth - 1) rest).map fun (items, rest) => (.array items cs, rest)
    | '{' :: rest =>
      if depth ≤ 1 then .error cs
      else match readPairs fuel (depth - 1) [] (skipSpace rest) with
        | .error e => .error e
        | .ok (none, _) => .error rest
        | .ok (some entries, rest) => .ok (.table .inline entries (some cs), rest)
    | cs => (readScalar cs).map fun (s, rest) => (.scalar s cs, rest)

/-- The items that are left of an array, and its closing bracket. -/
def readItems : Nat → Nat → List Char → Read (List Value)
  | 0, _, cs => .error cs
  | fuel + 1, depth, cs =>
    match skipLines (cs.length + 1) cs with
    | .error e => .error e
    | .ok (']' :: rest) => .ok ([], rest)
    | .ok cs =>
      match readValue fuel depth cs with
      | .error e => .error e
      | .ok (v, rest) =>
        match skipLines (rest.length + 1) rest with
        | .error e => .error e
        | .ok (',' :: rest) => (readItems fuel depth rest).map fun (vs, rest) => (v :: vs, rest)
        | .ok (']' :: rest) => .ok ([v], rest)
        | .ok rest => .error rest

/-- The entries of a table in braces, put into those read so far, and its closing brace. What is
read is nothing if a key is set twice. -/
def readPairs : Nat → Nat → Entries → List Char → Read (Option Entries)
  | 0, _, _, cs => .error cs
  | fuel + 1, depth, entries, cs =>
    match cs with
    | '}' :: rest => if entries = [] then .ok (some entries, rest) else .error cs
    | cs =>
      match readPair fuel depth cs with
      | .error e => .error e
      | .ok ((keys, v), rest) =>
        match addAlong keys v .inline entries with
        | none => .ok (none, rest)
        | some entries =>
          match rest with
          | ',' :: rest => readPairs fuel depth entries (skipSpace rest)
          | '}' :: rest => .ok (some entries, rest)
          | rest => .error rest

def readPair : Nat → Nat → List Char → Read (List Key × Value)
  | 0, _, cs => .error cs
  | fuel + 1, depth, cs =>
    match readKey (depthLimit - 1) cs with
    | .error e => .error e
    | .ok (keys, '=' :: rest) =>
      (readValue fuel depth (skipSpace rest)).map fun (v, rest) => ((keys, v), skipSpace rest)
    | .ok (_, rest) => .error rest

end

/-! ### Tables -/

structure Open where
  /-- The keys of its header; none for the table of the document. -/
  path : List Key
  /-- Whether it is one of the tables of an array. -/
  inArray : Bool
  start : Option (List Char)
  entries : Entries

/-- A document as far as it has been read: what is closed, and the table being filled. -/
structure Draft where
  closed : Entries
  current : Open

namespace Draft

def start : Draft := ⟨[], ⟨[], false, none, []⟩⟩

def close (d : Draft) : Option Entries :=
  let t := d.current
  let v : Value := .table .header t.entries t.start
  match t.path.getLast? with
  | none => some t.entries
  | some key =>
    let change (_ : Form) (entries : Entries) : Option (Unit × Entries) :=
      if t.inArray then
        match entries.get? key.name with
        | some (.tables items) =>
          some ((), entries.map fun e =>
            if e.1.name = key.name then (e.1, .tables (items ++ [v])) else e)
        | _ => none
      else (addEntry key v entries).map fun es => ((), es)
    (descend false change t.path.dropLast .header d.closed).map (·.2)

/-- Goes on with a table under a header. If it was implied so far, it keeps what it has. -/
def openTable (d : Draft) (path : List Key) (start : List Char) : Option Draft := do
  let closed ← d.close
  let key ← path.getLast?
  let change (_ : Form) (entries : Entries) : Option (Entries × Entries) :=
    match entries.get? key.name with
    | none => some ([], entries)
    | some (.table .implied es _) => some (es, entries.filter (·.1.name ≠ key.name))
    | some _ => none
  let (entries, closed) ← descend false change path.dropLast .header closed
  pure ⟨closed, ⟨path, false, some start, entries⟩⟩

def openArray (d : Draft) (path : List Key) (start : List Char) : Option Draft := do
  let closed ← d.close
  let key ← path.getLast?
  let change (_ : Form) (entries : Entries) : Option (Unit × Entries) :=
    match entries.get? key.name with
    | none => some ((), entries ++ [(key, .tables [])])
    | some (.tables _) => some ((), entries)
    | some _ => none
  let (_, closed) ← descend false change path.dropLast .header closed
  pure ⟨closed, ⟨path, true, some start, []⟩⟩

def set (d : Draft) (keys : List Key) (v : Value) : Option Draft :=
  (addAlong keys v .header d.current.entries).map fun entries =>
    { d with current := { d.current with entries } }

end Draft

/-- The text after the end of a line, which blanks and a comment may precede. -/
def endLine (cs : List Char) : Except (List Char) (List Char) :=
  match skipComment (skipSpace cs) with
  | [] => .ok []
  | rest => (newline? rest).elim (.error rest) .ok

def readHeader (cs : List Char) : Except (List Char) (Bool × List Key × List Char) := do
  let (inArray, cs) := match cs with
    | '[' :: '[' :: cs => (true, cs)
    | cs => (false, cs.drop 1)
  let (keys, rest) ← readKey (depthLimit - 1) cs
  match inArray, rest with
  | true, ']' :: ']' :: rest | false, ']' :: rest => do pure (inArray, keys, ← endLine rest)
  | _, rest => .error rest

def readLinesOf : Nat → Draft → List Char → Except (List Char) Entries
  | 0, _, cs => .error cs
  | fuel + 1, d, cs =>
    match skipSpace cs with
    | [] => d.close.elim (.error []) .ok
    | '#' :: rest =>
      match endLine ('#' :: rest) with
      | .error e => .error e
      | .ok rest => readLinesOf fuel d rest
    | '[' :: rest =>
      match readHeader ('[' :: rest) with
      | .error e => .error e
      | .ok (inArray, keys, next) =>
        let start := '[' :: rest
        match if inArray then d.openArray keys start else d.openTable keys start with
        | none => .error start
        | some d => readLinesOf fuel d next
    | cs =>
      match newline? cs with
      | some rest => readLinesOf fuel d rest
      | none =>
        match readPair (cs.length + 1) depthLimit cs with
        | .error e => .error e
        | .ok ((keys, v), rest) =>
          match endLine rest with
          | .error e => .error e
          | .ok next =>
            match d.set keys v with
            | none => .error cs
            | some d => readLinesOf fuel d next

def afterMark (cs : List Char) : List Char :=
  match cs with
  | c :: rest => if c.toNat = 0xFEFF then rest else cs
  | [] => []

/-- The entries of a document, or the place of what is wrong with it. -/
def parse (text : List Char) : Except (List Char) Entries :=
  readLinesOf (text.length + 1) Draft.start (afterMark text)

end BundleMerge.Toml
