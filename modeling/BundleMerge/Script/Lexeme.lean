import BundleMerge.Script.Gap

/-! The lexemes of a script. Each function answers how many characters at the start of a text
make up a lexeme of its class, the longest one there is. -/
namespace BundleMerge.Script

/-- `\uXXXX` or `\u{X…}`, as in an identifier. -/
def unicodeEscape? (cs : List Char) : Option Nat :=
  match cs with
  | '\\' :: 'u' :: '\x7b' :: cs =>
    let digits := cs.takeWhile isHex
    if digits ≠ [] && (cs.drop digits.length).head? = some '\x7d' then some (digits.length + 4)
    else none
  | '\\' :: 'u' :: cs =>
    if (cs.take 4).length = 4 && (cs.take 4).all isHex then some 6 else none
  | _ => none

/-- The rest of an identifier, of which `known` characters have been looked at. -/
def nameRest : (known : Nat) → List Char → Nat
  | _, [] => 0
  | known + 1, _ :: cs => nameRest known cs + 1
  | 0, c :: cs =>
    if isNamePart c then nameRest 0 cs + 1
    else match unicodeEscape? (c :: cs) with
      | some n => nameRest (n - 1) cs + 1
      | none => 0

def name? (cs : List Char) : Option Nat :=
  match cs with
  | [] => none
  | c :: rest =>
    if isNameStart c then some (nameRest 0 rest + 1)
    else (unicodeEscape? cs).map fun n => nameRest n cs

/-- An identifier that a class declares for itself. -/
def privateName? (cs : List Char) : Option Nat :=
  match cs with
  | '#' :: cs => (name? cs).map (· + 1)
  | _ => none

def word? (w : List Char) (cs : List Char) : Option Nat :=
  if w.isPrefixOf cs then
    let rest := cs.drop w.length
    if rest.head?.any isNamePart || (unicodeEscape? rest).isSome then none else some w.length
  else none

def marks : List (List Char) :=
  ["\x7b", "\x7d", "(", ")", "[", "]", ";", ",", ":", ".", "...", "?", "?.", "??", "??=", "<", "<=",
   "<<", "<<=", ">", ">=", ">>", ">>=", ">>>", ">>>=", "=", "==", "===", "=>", "!", "!=", "!==",
   "+", "++", "+=", "-", "--", "-=", "*", "**", "*=", "**=", "/", "/=", "%", "%=", "&", "&&", "&=",
   "&&=", "|", "||", "|=", "||=", "^", "^=", "~", "@"].map String.toList

/-- A mark, where no longer mark stands. -/
def mark? (m : List Char) (cs : List Char) : Option Nat :=
  if m.isPrefixOf cs then
    if marks.any fun longer => m.length < longer.length && longer.isPrefixOf cs then none
    else some m.length
  else none

/-- The question mark of a condition; a point and a digit may follow it. -/
def condition? (cs : List Char) : Option Nat :=
  match cs with
  | '?' :: '?' :: _ => none
  | '?' :: '.' :: cs => if cs.head?.any Char.isDigit then some 1 else none
  | '?' :: _ => some 1
  | _ => none

/-- Digits of a kind, with single underscores between them. -/
def digits (isDigit : Char → Bool) : List Char → Nat
  | [] => 0
  | c :: cs =>
    if isDigit c then digits isDigit cs + 1
    else match cs with
      | [] => 0
      | d :: ds => if c = '_' && isDigit d then digits isDigit ds + 2 else 0

def digits? (isDigit : Char → Bool) (cs : List Char) : Option Nat :=
  match cs with
  | c :: _ => if isDigit c then some (digits isDigit cs) else none
  | [] => none

def exponent? (cs : List Char) : Option Nat :=
  match cs with
  | e :: cs =>
    if e = 'e' || e = 'E' then
      match cs with
      | s :: rest =>
        if s = '+' || s = '-' then (digits? Char.isDigit rest).map (· + 2)
        else (digits? Char.isDigit cs).map (· + 1)
      | [] => none
    else none
  | [] => none

/-- What a letter after a zero makes of the digits that follow. -/
def radix? (c : Char) : Option (Char → Bool) :=
  if c = 'x' || c = 'X' then some isHex
  else if c = 'b' || c = 'B' then some fun c => c = '0' || c = '1'
  else if c = 'o' || c = 'O' then some isOctal
  else none

/-- Whether digits may stand before a point or an exponent: a zero alone, or digits with at most
one zero before them. -/
def isWhole (ds : List Char) : Bool :=
  match ds with
  | ['0'] => true
  | '0' :: c :: _ => c ≠ '0' && c ≠ '_'
  | _ => true

def decimal? (cs : List Char) : Option Nat :=
  match cs with
  | '.' :: rest =>
    (digits? Char.isDigit rest).map fun n => n + 1 + (exponent? (rest.drop n)).getD 0
  | _ =>
    (digits? Char.isDigit cs).map fun n =>
      if isWhole (cs.take n) then
        match cs.drop n with
        | '.' :: rest =>
          let m := (digits? Char.isDigit rest).getD 0
          n + 1 + m + (exponent? (rest.drop m)).getD 0
        | 'n' :: _ => n + 1
        | rest => n + (exponent? rest).getD 0
      else if (cs.drop n).head? = some 'n' then n + 1
      else n

def number? (cs : List Char) : Option Nat :=
  match cs with
  | '0' :: r :: rest =>
    match (radix? r).bind fun isDigit => digits? isDigit rest with
    | some n => some (if (rest.drop n).head? = some 'n' then n + 3 else n + 2)
    | none => decimal? cs
  | _ => decimal? cs

def escape? (cs : List Char) : Option Nat :=
  match cs with
  | '\\' :: 'x' :: cs => if (cs.take 2).length = 2 && (cs.take 2).all isHex then some 4 else none
  | '\\' :: 'u' :: _ => unicodeEscape? cs
  | '\\' :: '\r' :: c :: _ | '\\' :: '?' :: c :: _ => some (if isNewline c then 3 else 2)
  | '\\' :: c :: cs =>
    if c.toNat = 0 then none
    else if isOctal c then some (2 + ((cs.take 2).takeWhile isOctal).length)
    else some 2
  | _ => none

/-- The rest of a text up to its closing quote, of which `known` characters have been looked
at. -/
def stringRest (quote : Char) : (known : Nat) → List Char → Option Nat
  | _, [] => none
  | known + 1, _ :: cs => (stringRest quote known cs).map (· + 1)
  | 0, c :: cs =>
    if c = quote then some 1
    else if c = '\\' then
      match escape? (c :: cs) with
      | some n => (stringRest quote (n - 1) cs).map (· + 1)
      | none => none
    else if c = '\r' || c = '\n' || c.toNat = 0 then none
    else (stringRest quote 0 cs).map (· + 1)

def string? (cs : List Char) : Option Nat :=
  match cs with
  | c :: rest =>
    if c = '"' || c = '\'' then (stringRest c 0 rest).map (· + 1) else none
  | [] => none

/-- The characters of a template up to a substitution or its end. -/
def templateRest : (known : Nat) → List Char → Option Nat
  | _, [] => none
  | known + 1, _ :: cs => (templateRest known cs).map (· + 1)
  | 0, c :: cs =>
    if c = '`' || (c = '$' && cs.head? = some '\x7b') then some 0
    else if c = '\\' then
      match escape? (c :: cs) with
      | some n => (templateRest (n - 1) cs).map (· + 1)
      | none => none
    else if c.toNat = 0 then none
    else (templateRest 0 cs).map (· + 1)

def templateChars? (cs : List Char) : Option Nat :=
  match templateRest 0 cs with
  | some 0 | none => none
  | some n => some n

/-- The rest of a regular expression up to its closing slash, inside or outside a class, and maybe
after a backslash. -/
def regexRest (inClass escaped : Bool) : List Char → Option Nat
  | [] => none
  | c :: cs =>
    if c = '\n' || c.toNat = 0 then none
    else if escaped then (regexRest inClass false cs).map (· + 1)
    else if c = '\\' then (regexRest inClass true cs).map (· + 1)
    else if inClass then (regexRest (c ≠ ']') false cs).map (· + 1)
    else if c = '/' then some 1
    else (regexRest (c = '[') false cs).map (· + 1)

def regex? (cs : List Char) : Option Nat :=
  match cs with
  | '/' :: '/' :: _ | '/' :: '*' :: _ => none
  | '/' :: cs =>
    (regexRest false false cs).map fun n =>
      n + 1 + ((cs.drop n).takeWhile fun c => 'a' ≤ c && c ≤ 'z').length
  | _ => none

/-- The line `#!…` that a script may start with. -/
def interpreterLine? (cs : List Char) : Option Nat :=
  match cs with
  | '#' :: '!' :: rest => some ((rest.takeWhile (· ≠ '\n')).length + 2)
  | _ => none

/-- A character reference of markup, as `&lt;`. -/
def reference? (cs : List Char) : Option Nat :=
  let closed (ds : List Char) (before most : Nat) (rest : List Char) : Option Nat :=
    if ds ≠ [] && ds.length ≤ most && (rest.drop ds.length).head? = some ';' then
      some (before + ds.length + 1)
    else none
  match cs with
  | '&' :: '#' :: 'x' :: rest | '&' :: '#' :: 'X' :: rest => closed (rest.takeWhile isHex) 3 6 rest
  | '&' :: '#' :: rest => closed (rest.takeWhile Char.isDigit) 2 5 rest
  | '&' :: rest => closed (rest.takeWhile isLetter) 1 30 rest
  | _ => none

def markupText? (cs : List Char) : Option Nat :=
  let n := (cs.takeWhile fun c => !"<>\x7b\x7d&".toList.contains c && c.toNat ≠ 0).length
  if n = 0 then none else some n

/-- The rest of an attribute's text, up to its closing quote. -/
def markupStringRest (quote : Char) : (known : Nat) → List Char → Option Nat
  | _, [] => none
  | known + 1, _ :: cs => (markupStringRest quote known cs).map (· + 1)
  | 0, c :: cs =>
    if c = quote then some 1
    else if c = '&' then
      match reference? (c :: cs) with
      | some n => (markupStringRest quote (n - 1) cs).map (· + 1)
      | none =>
        if cs.head?.any fun d => d = '#' || isLetter d then none
        else (markupStringRest quote 1 cs).map (· + 1)
    else (markupStringRest quote 0 cs).map (· + 1)

def markupString? (cs : List Char) : Option Nat :=
  match cs with
  | c :: rest =>
    if c = '"' || c = '\'' then (markupStringRest c 0 rest).map (· + 1) else none
  | [] => none

/-- A name in markup, which may contain hyphens. -/
def markupName? (cs : List Char) : Option Nat :=
  match cs with
  | c :: rest =>
    let plain (c : Char) : Bool := isLetter c || c.isDigit || c = '_' || c = '$'
    if isLetter c || c = '_' || c = '$' then
      let n := (rest.takeWhile plain).length
      if (rest.drop n).head? = some '-' then
        some (n + 1 + ((rest.drop n).takeWhile fun c => plain c || c = '-').length)
      else name? cs
    else name? cs
  | [] => none

/-- `get` before the end of a line is never a name but announces a getter. -/
def isGetLine (cs : List Char) : Bool :=
  match cs with
  | 'g' :: 'e' :: 't' :: rest => ((rest.takeWhile isPlainBlank).contains '\n')
  | _ => false

end BundleMerge.Script
