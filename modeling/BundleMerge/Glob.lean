import BundleMerge.Path

/-! File name patterns. `?` stands for one character and `*` for any run of them, slashes and
leading dots included; `**` stands for whole components; `[...]` and `[!...]` for one character
of a class or outside it. Every other character stands for itself. -/
namespace BundleMerge

namespace Glob

/-- A member of a class: a character, or a range. A range from `a` to `b` with `b < a` is empty. -/
inductive Member where
  | one (c : Char)
  | range (first last : Char)
  deriving Repr, DecidableEq

inductive Token where
  | char (c : Char)
  | any
  | run
  | components
  | within (ms : List Member)
  | without (ms : List Member)
  deriving Repr, DecidableEq

inductive Flaw where
  | tooManyStars
  | partComponent
  | badClass
  deriving Repr, DecidableEq

def Flaw.message : Flaw → String
  | .tooManyStars => "wildcards are either regular `*` or recursive `**`"
  | .partComponent => "recursive wildcards must form a single path component"
  | .badClass => "invalid range pattern"

structure Error where
  position : Nat
  flaw : Flaw
  deriving Repr, DecidableEq

def Error.message (e : Error) : String :=
  "Pattern syntax error near position " ++ toString e.position ++ ": " ++ e.flaw.message

def members : List Char → List Member
  | a :: '-' :: b :: rest => .range a b :: members rest
  | a :: rest => .one a :: members rest
  | [] => []

/-- Splits after the first `]`, which is dropped. -/
def untilBracket? : List Char → Option (List Char × List Char)
  | [] => none
  | ']' :: rest => some ([], rest)
  | c :: rest => (untilBracket? rest).map fun (inside, rest) => (c :: inside, rest)

/-- The class after an opening bracket. Its first character is in it even if it is `]`. -/
def readClass? : List Char → Option (Token × List Char)
  | '!' :: c :: rest =>
    (untilBracket? rest).map fun (inside, rest) => (.without (members (c :: inside)), rest)
  | '!' :: [] => none
  | c :: rest =>
    (untilBracket? rest).map fun (inside, rest) => (.within (members (c :: inside)), rest)
  | [] => none

/-- Adds `**` to the tokens read so far, the last one first; a repetition adds nothing. -/
def addComponents (read : List Token) : List Token :=
  match read with
  | .components :: _ :: _ => read
  | _ => .components :: read

/-- Reads the pattern text that starts at index `at` after the character `last`. The tokens read
so far are kept with the last one first. -/
def compileFrom (fuel : Nat) (position : Nat) (last : Option Char) (read : List Token) :
    List Char → Except Error (List Token)
  | [] => .ok read.reverse
  | c :: rest =>
    match fuel with
    | 0 => .ok read.reverse
    | fuel + 1 =>
      match c with
      | '?' => compileFrom fuel (position + 1) (some c) (.any :: read) rest
      | '*' =>
        let more := rest.takeWhile (· = '*')
        let rest := rest.dropWhile (· = '*')
        match more.length with
        | 0 => compileFrom fuel (position + 1) (some c) (.run :: read) rest
        | 1 =>
          if last.all (· = '/') then
            match rest with
            | [] => .ok (addComponents read).reverse
            | '/' :: rest => compileFrom fuel (position + 3) (some '/') (addComponents read) rest
            | _ => .error ⟨position + 2, .partComponent⟩
          else .error ⟨position - 1, .partComponent⟩
        | _ => .error ⟨position + 2, .tooManyStars⟩
      | '[' =>
        match readClass? rest with
        | some (token, after) =>
          compileFrom fuel (position + 1 + (rest.length - after.length)) (some ']') (token :: read)
            after
        | none => .error ⟨position, .badClass⟩
      | c => compileFrom fuel (position + 1) (some c) (.char c :: read) rest

def compile (pattern : List Char) : Except Error (List Token) :=
  compileFrom pattern.length 0 none [] pattern

def Member.holds (c : Char) : Member → Bool
  | .one d => c = d
  | .range first last => first ≤ c && c ≤ last

/-- Whether a token that stands for exactly one character stands for `c`. -/
def Token.holds (c : Char) : Token → Bool
  | .char d => c = d
  | .any => true
  | .within ms => ms.any (·.holds c)
  | .without ms => !ms.any (·.holds c)
  | .run | .components => false

/-- Whether some end of a text, the whole and the empty one included, has a property. -/
def someEnd (f : List Char → Bool) : List Char → Bool
  | [] => f []
  | c :: cs => f (c :: cs) || someEnd f cs

/-- The same for the ends that follow a slash, and the empty one. -/
def someEndAfterSlash (f : List Char → Bool) : List Char → Bool
  | [] => f []
  | c :: cs => (c = '/' && f cs) || someEndAfterSlash f cs

def matchesAll : List Token → List Char → Bool
  | [], cs => cs.isEmpty
  | .run :: ts, cs => someEnd (matchesAll ts) cs
  | .components :: ts, cs => matchesAll ts cs || someEndAfterSlash (matchesAll ts) cs
  | _ :: _, [] => false
  | t :: ts, c :: cs => t.holds c && matchesAll ts cs

end Glob

structure Glob where
  tokens : List Glob.Token
  deriving Repr, DecidableEq

namespace Glob

def ofText (pattern : String) : Except Error Glob :=
  (compile pattern.toList).map Glob.mk

def matchesPath (g : Glob) (p : Path) : Bool :=
  matchesAll g.tokens p.text.toList

end Glob
end BundleMerge
