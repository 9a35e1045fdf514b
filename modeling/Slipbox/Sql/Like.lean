import Slipbox.Sql.Value

/-! Pattern matching with `LIKE`: a percent sign stands for any text, an underscore for any one
character, and every other character for itself without regard to ASCII letter case. The escape
character takes the special meaning from the character after it. -/

namespace Slipbox.Sql

/-- A character as a pattern test reads it: two noncharacters count as the replacement character. -/
def patternChar (c : Char) : Char :=
  if c == '\uFFFE' || c == '\uFFFF' then '\uFFFD' else c

/-- What a pattern test reads of the pattern or of the text that is tested: the characters before
the first null character. -/
def patternChars (s : String) : List Char :=
  (beforeNull s).map patternChar

/-- The largest number of bytes that a pattern may have. -/
def maxPatternSize : Nat := 50000

/-- Equal up to ASCII letter case. -/
def sameLetter (a b : Char) : Bool :=
  a.toLower == b.toLower

/-- Whether the text fits after some part of it is skipped. -/
def fitsLater (fits : List Char → Bool) : List Char → Bool
  | [] => fits []
  | c :: cs => fits (c :: cs) || fitsLater fits cs

/-- Whether the whole text fits the pattern. -/
def fits (escape : Char) : (pattern text : List Char) → Bool
  | [], cs => cs.isEmpty
  | p :: ps, cs =>
    if p = '%' then fitsLater (fits escape ps) cs
    else if p = escape then
      match ps, cs with
      | q :: qs, c :: rest => sameLetter q c && fits escape qs rest
      | _, _ => false
    else
      match cs with
      | [] => false
      | c :: rest => (p == '_' || sameLetter p c) && fits escape ps rest

end Slipbox.Sql
