import BundleMerge.Toml.Value

/-! The keys, texts, numbers and dates of TOML. Each reader takes the text that is left and gives
back what it read with the text after it. A failure is the text that was left where it showed. -/
namespace BundleMerge.Toml

abbrev Read (α : Type) := Except (List Char) (α × List Char)

def isSpace (c : Char) : Bool :=
  c = ' ' || c = '\t'

def skipSpace (cs : List Char) : List Char :=
  cs.dropWhile isSpace

/-- A character that may stand in a comment or a text: no control character but the tab. -/
def isPlain (c : Char) : Bool :=
  c = '\t' || (32 ≤ c.toNat && c.toNat ≠ 127)

def newline? (cs : List Char) : Option (List Char) :=
  match cs with
  | '\n' :: cs | '\r' :: '\n' :: cs => some cs
  | _ => none

def skipComment (cs : List Char) : List Char :=
  match cs with
  | '#' :: cs => cs.dropWhile isPlain
  | cs => cs

/-! ### Texts -/

def hexValue? (c : Char) : Option Nat :=
  if c.isDigit then some (c.toNat - 48)
  else if 'a' ≤ c && c ≤ 'f' then some (c.toNat - 87)
  else if 'A' ≤ c && c ≤ 'F' then some (c.toNat - 55)
  else none

def number (base : Nat) (digits : List Nat) : Nat :=
  digits.foldl (fun n d => n * base + d) 0

def readUnicode (digits : Nat) (cs : List Char) : Read Char :=
  let ds := cs.take digits
  if ds.length < digits then .error cs
  else match ds.mapM hexValue? with
    | none => .error cs
    | some ds =>
      let n := number 16 ds
      if n.isValidChar then .ok (Char.ofNat n, cs.drop digits) else .error cs

def readEscape (cs : List Char) : Read Char :=
  match cs with
  | 'b' :: cs => .ok (Char.ofNat 8, cs)
  | 'f' :: cs => .ok (Char.ofNat 12, cs)
  | 'n' :: cs => .ok ('\n', cs)
  | 'r' :: cs => .ok ('\r', cs)
  | 't' :: cs => .ok ('\t', cs)
  | '\\' :: cs => .ok ('\\', cs)
  | '"' :: cs => .ok ('"', cs)
  | 'u' :: cs => readUnicode 4 cs
  | 'U' :: cs => readUnicode 8 cs
  | cs => .error (cs.drop 1)

/-- The rest of a text within one line, up to its closing quote. -/
def readBasic : Nat → List Char → Read (List Char)
  | 0, cs => .error cs
  | _, [] => .error []
  | fuel + 1, c :: cs =>
    if c = '"' then .ok ([], cs)
    else if c = '\\' then
      match readEscape cs with
      | .error e => .error e
      | .ok (c, cs) => (readBasic fuel cs).map fun (text, rest) => (c :: text, rest)
    else if isPlain c then (readBasic fuel cs).map fun (text, rest) => (c :: text, rest)
    else .error (c :: cs)

def readLiteral : List Char → Read (List Char)
  | [] => .error []
  | c :: cs =>
    if c = '\'' then .ok ([], cs)
    else if isPlain c then (readLiteral cs).map fun (text, rest) => (c :: text, rest)
    else .error (c :: cs)

/-- The text after the blanks and line ends that a backslash at the end of a line takes away. -/
def skipBreak? (cs : List Char) : Option (List Char) :=
  (newline? (skipSpace cs)).map skipBlank
where
  skipBlank : List Char → List Char
    | '\r' :: '\n' :: cs => skipBlank cs
    | c :: cs => if isSpace c || c = '\n' then skipBlank cs else c :: cs
    | [] => []

/-- The rest of a text of several lines, up to three closing quotes. Up to two quotes before
those belong to the text. -/
def readLines (quote : Char) (escapes : Bool) : Nat → List Char → Read (List Char)
  | 0, cs => .error cs
  | _, [] => .error []
  | fuel + 1, c :: cs =>
    let keep (c : Char) (cs : List Char) : Read (List Char) :=
      (readLines quote escapes fuel cs).map fun (text, rest) => (c :: text, rest)
    if c = quote then
      let run := (cs.takeWhile (· = quote)).length + 1
      if 3 ≤ run then
        let kept := min (run - 3) 2
        .ok (List.replicate kept quote, (c :: cs).drop (kept + 3))
      else keep c cs
    else if escapes && c = '\\' then
      match skipBreak? cs with
      | some rest => readLines quote escapes fuel rest
      | none =>
        match readEscape cs with
        | .error e => .error e
        | .ok (c, cs) => keep c cs
    else match newline? (c :: cs) with
      | some rest => keep '\n' rest
      | none => if isPlain c then keep c cs else .error (c :: cs)

def dropNewline (cs : List Char) : List Char :=
  (newline? cs).getD cs

def readString (cs : List Char) : Read String :=
  let text := match cs with
    | '"' :: '"' :: '"' :: rest => readLines '"' true (rest.length + 1) (dropNewline rest)
    | '\'' :: '\'' :: '\'' :: rest => readLines '\'' false (rest.length + 1) (dropNewline rest)
    | '"' :: rest => readBasic (rest.length + 1) rest
    | '\'' :: rest => readLiteral rest
    | cs => .error cs
  text.map fun (text, rest) => (String.ofList text, rest)

/-! ### Keys -/

def isBare (c : Char) : Bool :=
  c.isAlphanum || c = '-' || c = '_'

def readSimpleKey (cs : List Char) : Read String :=
  match cs with
  | '"' :: rest => (readBasic (rest.length + 1) rest).map fun (t, rest) => (String.ofList t, rest)
  | '\'' :: rest => (readLiteral rest).map fun (t, rest) => (String.ofList t, rest)
  | cs =>
    match cs.takeWhile isBare with
    | [] => .error cs
    | bare => .ok (String.ofList bare, cs.dropWhile isBare)

/-- A key has fewer parts than this, and values are nested less deeply. -/
def depthLimit : Nat := 80

/-- The parts of a key, with points between them; fuel bounds their number. -/
def readKey : Nat → List Char → Read (List Key)
  | 0, cs => .error cs
  | fuel + 1, cs =>
    let start := skipSpace cs
    match readSimpleKey start with
    | .error e => .error e
    | .ok (name, rest) =>
      match skipSpace rest with
      | '.' :: rest => (readKey fuel rest).map fun (keys, rest) => (⟨name, start⟩ :: keys, rest)
      | rest => .ok ([⟨name, start⟩], rest)

/-! ### Numbers -/

/-- Digits of a kind with single underscores between them, as the text after them. The first one
has to be there. -/
def skipDigits? (isDigit : Char → Bool) (cs : List Char) : Option (List Char) :=
  match cs with
  | c :: cs => if isDigit c then more cs else none
  | [] => none
where
  more : List Char → Option (List Char)
    | '_' :: c :: cs => if isDigit c then more cs else none
    | ['_'] => none
    | c :: cs => if isDigit c then more cs else some (c :: cs)
    | [] => some []

def skipSign (cs : List Char) : List Char :=
  match cs with
  | '+' :: cs | '-' :: cs => cs
  | cs => cs

/-- The text after a decimal integer: a zero alone, or digits that do not start with one. -/
def skipInteger? (cs : List Char) : Option (List Char) :=
  match skipSign cs with
  | '0' :: cs => some cs
  | cs => skipDigits? Char.isDigit cs

/-- The characters of `cs` up to `rest`. -/
def upTo (cs rest : List Char) : List Char :=
  cs.take (cs.length - rest.length)

def isNegative (cs : List Char) : Bool :=
  cs.head? = some '-'

def digitsOf (cs : List Char) : List Nat :=
  cs.filterMap hexValue?

def inRange (n : Int) : Bool :=
  -(Nat.pow 2 63 : Int) ≤ n && n < (Nat.pow 2 63 : Int)

def integer? (cs : List Char) : Option (Scalar × List Char) :=
  let based (base : Nat) (isDigit : Char → Bool) (cs : List Char) : Option (Int × List Char) :=
    (skipDigits? isDigit cs).map fun rest => ((number base (digitsOf (upTo cs rest)) : Int), rest)
  let read := match cs with
    | '0' :: 'x' :: cs => based 16 (fun c => (hexValue? c).isSome) cs
    | '0' :: 'o' :: cs => based 8 (fun c => '0' ≤ c && c ≤ '7') cs
    | '0' :: 'b' :: cs => based 2 (fun c => c = '0' || c = '1') cs
    | cs => (skipInteger? cs).map fun rest =>
        let n : Int := number 10 (digitsOf (upTo (skipSign cs) rest))
        (if isNegative cs then -n else n, rest)
  read.bind fun (n, rest) => if inRange n then some (.integer n, rest) else none

def skipExponent? (cs : List Char) : Option (List Char) :=
  match cs with
  | 'e' :: cs | 'E' :: cs => skipDigits? Char.isDigit (skipSign cs)
  | _ => none

/-- The float that is written by whole digits, a fraction and an exponent. -/
def floatOf (negative : Bool) (whole fraction : List Nat) (exponent : Int) : Option Float :=
  let digits := number 10 (whole ++ fraction)
  let e := exponent - fraction.length
  let size : Int := (whole ++ fraction).length + e
  if digits = 0 || size < -400 then some (.finite { Binary64.zero with negative })
  else
    let value := if 400 < size then none
      else if 0 ≤ e then Binary64.ofRatio? negative (digits * Nat.pow 10 e.toNat) 1
      else Binary64.ofRatio? negative digits (Nat.pow 10 (-e).toNat)
    match value with
    | some x => some (.finite x)
    | none => if negative then some (.infinite true) else none

def float? (cs : List Char) : Option (Scalar × List Char) := do
  let afterWhole ← skipInteger? cs
  let whole := digitsOf (upTo (skipSign cs) afterWhole)
  let afterFraction ← match afterWhole with
    | '.' :: cs => skipDigits? Char.isDigit cs
    | cs => some cs
  let fraction := digitsOf (upTo afterWhole afterFraction)
  let (exponent, rest) ← match afterFraction with
    | 'e' :: cs | 'E' :: cs =>
      (skipExponent? afterFraction).map fun rest =>
        let n : Int := number 10 (digitsOf (upTo (skipSign cs) rest))
        (if isNegative cs then -n else n, rest)
    | cs => if cs.length < afterWhole.length then some (0, cs) else none
  let x ← floatOf (isNegative cs) whole fraction exponent
  pure (.float x, rest)

/-- `inf` or `nan`, with or without a sign. -/
def specialFloat? (cs : List Char) : Option (Scalar × List Char) :=
  match skipSign cs with
  | 'i' :: 'n' :: 'f' :: rest => some (.float (.infinite (isNegative cs)), rest)
  | 'n' :: 'a' :: 'n' :: rest => some (.float .nan, rest)
  | _ => none

/-! ### Dates -/

/-- A number of so many digits within bounds. -/
def field? (digits least most : Nat) (cs : List Char) : Option (Nat × List Char) :=
  let ds := cs.take digits
  if ds.length = digits && ds.all Char.isDigit then
    let n := number 10 (digitsOf ds)
    if least ≤ n && n ≤ most then some (n, cs.drop digits) else none
  else none

def skip? (c : Char) (cs : List Char) : Option (List Char) :=
  match cs with
  | d :: cs => if d = c then some cs else none
  | [] => none

def isLeap (year : Nat) : Bool :=
  year % 4 = 0 && (year % 100 ≠ 0 || year % 400 = 0)

def daysIn (year month : Nat) : Nat :=
  if month = 2 then (if isLeap year then 29 else 28)
  else if [4, 6, 9, 11].contains month then 30
  else 31

def skipDay? (cs : List Char) : Option (List Char) := do
  let (year, cs) ← field? 4 0 9999 cs
  let (month, cs) ← field? 2 1 12 (← skip? '-' cs)
  let (day, cs) ← field? 2 1 31 (← skip? '-' cs)
  if day ≤ daysIn year month then some cs else none

def skipTime? (cs : List Char) : Option (List Char) := do
  let (_, cs) ← field? 2 0 23 cs
  let (_, cs) ← field? 2 0 59 (← skip? ':' cs)
  let (_, cs) ← field? 2 0 60 (← skip? ':' cs)
  match cs with
  | '.' :: rest =>
    match rest with
    | c :: _ => some (if c.isDigit then rest.dropWhile Char.isDigit else cs)
    | [] => some cs
  | cs => some cs

/-- The text after the offset of a time, if it has one. -/
def skipOffset? (cs : List Char) : Option (List Char) :=
  match cs with
  | 'Z' :: cs | 'z' :: cs => some cs
  | '+' :: cs | '-' :: cs => do
    let (_, cs) ← field? 2 0 23 cs
    let (_, cs) ← field? 2 0 59 (← skip? ':' cs)
    some cs
  | cs => some cs

def isTimeMark (c : Char) : Bool :=
  c = 'T' || c = 't' || c = ' '

def date? (cs : List Char) : Option (Scalar × List Char) :=
  match skipDay? cs with
  | some rest =>
    let timed := match rest with
      | c :: cs => if isTimeMark c then (skipTime? cs).bind skipOffset? else none
      | [] => none
    some (.date, timed.getD rest)
  | none => (skipTime? cs).map fun rest => (.date, rest)

/-! ### Scalars -/

def scalar? (cs : List Char) : Option (Scalar × List Char) :=
  match cs with
  | 't' :: 'r' :: 'u' :: 'e' :: rest => some (.boolean true, rest)
  | 'f' :: 'a' :: 'l' :: 's' :: 'e' :: rest => some (.boolean false, rest)
  | c :: _ =>
    if c = '+' || c = '-' || c.isDigit then
      ((date? cs).orElse fun _ => (float? cs).orElse fun _ => specialFloat? cs).orElse
        fun _ => integer? cs
    else specialFloat? cs
  | [] => none

def readScalar (cs : List Char) : Read Scalar :=
  match cs with
  | '"' :: _ | '\'' :: _ => (readString cs).map fun (s, rest) => (.string s, rest)
  | cs => (scalar? cs).elim (.error cs) .ok

end BundleMerge.Toml
