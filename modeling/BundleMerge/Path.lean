/-! Slash-separated paths. A path keeps the text it was given, because that text is what gets
shown, while everything that compares paths looks at their parts: repeated slashes, inner `.`
and a trailing slash make no difference there. -/
namespace BundleMerge

structure Path where
  text : String
  deriving Repr, DecidableEq

namespace Path

/-- A part of a path. `here` is a leading `.`; `up` is `..`. -/
inductive Part where
  | root
  | here
  | up
  | name (s : String)
  deriving Repr, DecidableEq

/-- The stretches between slashes, empty ones included; never an empty list. -/
def pieces : List Char → List (List Char)
  | [] => [[]]
  | c :: cs =>
    if c = '/' then [] :: pieces cs
    else match pieces cs with
      | piece :: rest => (c :: piece) :: rest
      | [] => [[c]]

def ofPieces (ps : List (List Char)) : List Char :=
  ['/'].intercalate ps

/-- A stretch that names nothing where it stands. -/
def silent (piece : List Char) : Bool :=
  piece = [] || piece = ['.']

def partOf (piece : List Char) : Part :=
  if piece = ['.', '.'] then .up else .name (String.ofList piece)

def body (ps : List (List Char)) : List Part :=
  (ps.filter (!silent ·)).map partOf

def partsOf (cs : List Char) : List Part :=
  match pieces cs with
  | [] :: rest => if cs = [] then [] else .root :: body rest
  | ['.'] :: rest => .here :: body rest
  | ps => body ps

def parts (p : Path) : List Part :=
  partsOf p.text.toList

/-- Equality of paths as places: the same parts in the same order. -/
def sameAs (p q : Path) : Bool :=
  p.parts = q.parts

def isAbsolute (p : Path) : Bool :=
  p.text.toList.head? = some '/'

def isEmpty (p : Path) : Bool :=
  p.text.isEmpty

/-- A path that ends in a slash can only be a directory. -/
def endsInSlash (p : Path) : Bool :=
  p.text.toList.getLast? = some '/'

/-- `q` seen from `p`. An absolute `q` stands for itself; an empty one adds a trailing slash. -/
def join (p q : Path) : Path :=
  if q.isAbsolute then q
  else if p.isEmpty || p.endsInSlash then ⟨p.text ++ q.text⟩
  else ⟨p.text ++ "/" ++ q.text⟩

/-- `p` extended by names, one after the other. -/
def descend (p : Path) (names : List String) : Path :=
  names.foldl (fun p name => p.join ⟨name⟩) p

def startsWith (p base : Path) : Bool :=
  base.parts.isPrefixOf p.parts

def endsWith (p tail : Path) : Bool :=
  tail.parts.isSuffixOf p.parts

/-- Drops the first `n` stretches that name something, and silent ones around them. -/
def dropNames : Nat → List (List Char) → List (List Char)
  | _, [] => []
  | 0, piece :: rest => if silent piece then dropNames 0 rest else piece :: rest
  | n + 1, piece :: rest => if silent piece then dropNames (n + 1) rest else dropNames n rest

def dropSilentEnd (ps : List (List Char)) : List (List Char) :=
  (ps.reverse.dropWhile silent).reverse

/-- The text of a path without silent stretches at its end. -/
def trimEnd (cs : List Char) : List Char :=
  match pieces cs with
  | [] :: rest => if cs = [] then [] else '/' :: ofPieces (dropSilentEnd rest)
  | ['.'] :: rest => ofPieces (['.'] :: dropSilentEnd rest)
  | ps => ofPieces (dropSilentEnd ps)

/-- The text that is left of `cs` once its first `n` parts are taken off. -/
def dropParts (n : Nat) (cs : List Char) : List Char :=
  match n, partsOf cs, pieces cs with
  | 0, _, _ => trimEnd cs
  | n + 1, .root :: _, _ :: rest => ofPieces (dropSilentEnd (dropNames n rest))
  | n + 1, .here :: _, _ :: rest => ofPieces (dropSilentEnd (dropNames n rest))
  | n + 1, _, ps => ofPieces (dropSilentEnd (dropNames (n + 1) ps))

/-- `p` as seen from `base`, if `base` leads to it. -/
def relativeTo? (p base : Path) : Option Path :=
  if p.startsWith base then
    some ⟨String.ofList (dropParts base.parts.length p.text.toList)⟩
  else none

def Part.text : Part → String
  | .root => "/"
  | .here => "."
  | .up => ".."
  | .name s => s

/-- `p` with its parts spelled plainly and, unless it is absolute, `cwd` in front. A trailing
slash is kept, and so are exactly two leading ones. An empty path has no absolute form. -/
def absolute? (cwd p : Path) : Option Path :=
  if p.isEmpty then none
  else
    let cs := p.text.toList
    let parts := match p.parts with
      | .here :: rest => rest
      | parts => parts
    let doubled := cs.take 2 = ['/', '/'] && cs.take 3 ≠ ['/', '/', '/']
    let start : Path := if doubled then ⟨"//"⟩ else if p.isAbsolute then ⟨"/"⟩ else cwd
    let parts := if p.isAbsolute then parts.drop 1 else parts
    let plain := parts.foldl (fun p part => p.join ⟨part.text⟩) start
    some (if p.endsInSlash then plain.join ⟨""⟩ else plain)

/-- The name at the end of the path, unless it ends in `..` or names nothing. -/
def fileName? (p : Path) : Option String :=
  match p.parts.getLast? with
  | some (.name s) => some s
  | _ => none

/-- What follows the last dot of the file name, if something stands before that dot. -/
def extension? (p : Path) : Option String :=
  match p.fileName? with
  | none => none
  | some name =>
    let back := name.toList.reverse
    let ext := back.takeWhile (· ≠ '.')
    let stem := (back.dropWhile (· ≠ '.')).drop 1
    if stem = [] then none else some (String.ofList ext.reverse)

end Path
end BundleMerge
