/-! A place in a YAML text, with the line and column that the layout rules ask for. -/

namespace Slipbox.Yaml

/-- The characters that end a line. -/
def isBreak (c : Char) : Bool :=
  c == '\n' || c == '\r' || c == '\u0085' || c == '\u2028' || c == '\u2029'

/-- A space or a tab. -/
def isBlank (c : Char) : Bool :=
  c == ' ' || c == '\t'

/-- The characters of names. -/
def isNameChar (c : Char) : Bool :=
  c.isAlphanum || c == '_' || c == '-'

/-- The characters that a YAML text may hold. -/
def isAllowed (c : Char) : Bool :=
  let n := c.toNat
  n == 9 || n == 10 || n == 13 || (0x20 ≤ n && n ≤ 0x7e) || n == 0x85 ||
    (0xa0 ≤ n && n ≤ 0xfffd) || 0x10000 ≤ n

/-- What lies ahead, the number of characters passed, and the place in lines and columns. -/
structure Cursor where
  rest : List Char
  index : Nat
  line : Nat
  column : Nat

namespace Cursor

def ofText (cs : List Char) : Cursor :=
  ⟨cs, 0, 0, 0⟩

def head? (c : Cursor) : Option Char :=
  c.rest.head?

/-- The character `n` places ahead. -/
def at? (c : Cursor) (n : Nat) : Option Char :=
  c.rest[n]?

/-- Whether a character lies `n` places ahead. -/
def sees (c : Cursor) (x : Char) (n : Nat) : Bool :=
  c.at? n == some x

def seesHead (c : Cursor) (p : Char → Bool) : Bool :=
  c.head?.any p

/-- Whether a blank, a line end or the end of the text lies `n` places ahead. -/
def endsWord (c : Cursor) (n : Nat) : Bool :=
  match c.at? n with
  | none => true
  | some x => isBlank x || isBreak x

/-- Whether the line or the text ends here. -/
def atLineEnd (c : Cursor) : Bool :=
  match c.head? with
  | none => true
  | some x => isBreak x

/-- Passes some characters of the line. -/
def skip (c : Cursor) (n : Nat) : Cursor :=
  let passed := min n c.rest.length
  ⟨c.rest.drop n, c.index + passed, c.line, c.column + passed⟩

/-- Passes the characters of the line that satisfy `p`. -/
def skipWhile (c : Cursor) (p : Char → Bool) : Cursor :=
  c.skip (c.rest.takeWhile p).length

/-- Passes the rest of the line. -/
def skipToLineEnd (c : Cursor) : Cursor :=
  c.skipWhile fun x => !isBreak x

/-- Passes a line end, and says how it counts in a text: the separators of lines and paragraphs
stand for themselves, every other line end for a line feed. -/
def readLineEnd (c : Cursor) : List Char × Cursor :=
  match c.rest with
  | '\r' :: '\n' :: r => (['\n'], ⟨r, c.index + 2, c.line + 1, 0⟩)
  | x :: r =>
    if isBreak x then
      ([if x == '\u2028' || x == '\u2029' then x else '\n'], ⟨r, c.index + 1, c.line + 1, 0⟩)
    else ([], c)
  | [] => ([], c)

def skipLineEnd (c : Cursor) : Cursor :=
  c.readLineEnd.2

/-- Passes blanks and a comment up to the end of the line; nothing else may stand there. -/
def finishLine? (c : Cursor) : Option Cursor :=
  let c := c.skipWhile isBlank
  let c := if c.sees '#' 0 then c.skipToLineEnd else c
  if c.atLineEnd then some c.skipLineEnd else none

/-- Whether a line starts here with three marks that stand alone. -/
def atMarks (c : Cursor) (mark : Char) : Bool :=
  c.column == 0 && c.rest.take 3 == [mark, mark, mark] && c.endsWord 3

/-- Whether a document starts or ends here. -/
def atDocumentMarks (c : Cursor) : Bool :=
  c.atMarks '-' || c.atMarks '.'

end Cursor

end Slipbox.Yaml
