/-!
# Characters of YAML

A document holds printable characters and line breaks. All breaks are written alike before anything
else is read, so a line ends at a newline only.
-/

namespace Barline.Yaml

def isAllowed (c : Char) : Bool :=
  let n := c.toNat
  n == 0x09 || n == 0x0A || n == 0x0D || n == 0x85 || (0x20 ≤ n && n < 0x7F) ||
    (0xA0 ≤ n && n != 0xFFFE && n != 0xFFFF)

def unifyBreaks : List Char → List Char
  | '\r' :: '\n' :: rest => '\n' :: unifyBreaks rest
  | c :: rest =>
    (if c = '\r' ∨ c = '\u0085' ∨ c = '\u2028' ∨ c = '\u2029' then '\n' else c)
      :: unifyBreaks rest
  | [] => []

def byteOrderMark : Char := '\uFEFF'

def isGap (c : Char) : Bool := c == ' ' || c == '\t'

/-- Whether a character separates words, on a line or at its end. -/
def isSpacing (c : Char) : Bool := isGap c || c == '\n'

def endsToken (next : Option Char) : Bool := next.all isSpacing

def isNameCharacter (c : Char) : Bool := c.isAlphanum || c == '-' || c == '_'

/-- The characters that part the entries of a flow collection or enclose it. -/
def flowIndicators : List Char := [',', '[', ']', '\x7b', '\x7d']

/-- The characters besides those of names that tags are made of. -/
def tagMarks : List Char :=
  [';', '/', '?', ':', '@', '&', '=', '+', '$', '.', '!', '~', '*', '\'', '(', ')']

/-- The further characters of a tag that is written in full. -/
def fullTagMarks : List Char := [',', '[', ']']

/-- The characters besides blanks that may follow a name. -/
def nameEnds : List Char := ['?', ':', ',', ']', '\x7d', '%', '@', '\x60']

def strayMarks : List Char := ['%', '@', '\x60', '\t']

end Barline.Yaml
