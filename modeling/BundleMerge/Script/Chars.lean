/-! The classes of characters that scripts are written with. -/
namespace BundleMerge.Script

/-- What may stand between two lexemes: the blanks of ASCII, the spaces of Unicode, the byte order
mark, line and paragraph ends, and the joiners without width. -/
def isBlank (c : Char) : Bool :=
  let n := c.toNat
  (9 ≤ n && n ≤ 13) || n == 0x20 || n == 0xA0 || n == 0x1680 || (0x2000 ≤ n && n ≤ 0x200B) ||
    n == 0x2028 || n == 0x2029 || n == 0x202F || n == 0x205F || n == 0x2060 || n == 0x3000 ||
    n == 0xFEFF

def isPlainBlank (c : Char) : Bool :=
  (9 ≤ c.toNat && c.toNat ≤ 13) || c = ' '

/-- The ends of lines, other than the carriage return. -/
def isNewline (c : Char) : Bool :=
  c = '\n' || c.toNat == 0x2028 || c.toNat == 0x2029

def isLineEnd (c : Char) : Bool :=
  c = '\r' || isNewline c

def isLetter (c : Char) : Bool :=
  ('a' ≤ c && c ≤ 'z') || ('A' ≤ c && c ≤ 'Z')

def isHex (c : Char) : Bool :=
  c.isDigit || ('a' ≤ c && c ≤ 'f') || ('A' ≤ c && c ≤ 'F')

def isOctal (c : Char) : Bool :=
  '0' ≤ c && c ≤ '7'

/-- The marks of ASCII. The dollar sign and the low line are none: names are made of them. -/
def isPunctuation (c : Char) : Bool :=
  let n := c.toNat
  (33 ≤ n && n ≤ 47 && n != 36) || (58 ≤ n && n ≤ 64) || (91 ≤ n && n ≤ 96 && n != 95) ||
    (123 ≤ n && n ≤ 126)

/-- A character of an identifier: neither a control character, a blank nor a mark. -/
def isNamePart (c : Char) : Bool :=
  32 ≤ c.toNat && !isBlank c && !isPunctuation c

def isNameStart (c : Char) : Bool :=
  isNamePart c && !c.isDigit

end BundleMerge.Script
