import Slipbox.Text.CaseTable

/-! Lower case for whole texts. A capital sigma is the one letter whose small form depends on its
neighbours: at the end of a word it becomes a final sigma. -/

namespace Slipbox.Text

private def inRanges (ranges : List (Nat × Nat)) (c : Char) : Bool :=
  ranges.any fun r => r.1 ≤ c.toNat && c.toNat ≤ r.2

/-- The property Cased. -/
def isCased (c : Char) : Bool :=
  inRanges casedRanges c

/-- The property Case_Ignorable. -/
def isIgnorable (c : Char) : Bool :=
  inRanges ignorableRanges c

def CapitalRun.small? (run : CapitalRun) (n : Nat) : Option Nat :=
  if run.first ≤ n ∧ n ≤ run.last ∧ (n - run.first) % run.step = 0 then
    some (run.smallOfFirst + (n - run.first))
  else none

/-- The small form of a character by itself. -/
def smallChar (c : Char) : List Char :=
  if c.toNat < 0x80 then [c.toLower]
  else if c = 'İ' then ['i', '\u0307']
  else
    match capitalRuns.findSome? fun run => run.small? c.toNat with
    | some n => [Char.ofNat n]
    | none => [c]

/-- Whether a letter is the first character that matters on this side of a sigma. -/
def touchesLetter (side : List Char) : Bool :=
  match side.dropWhile isIgnorable with
  | [] => false
  | c :: _ => isCased c

/-- Lower case of the text after `before`, which is given in reverse. -/
def lowerAfter (before : List Char) : List Char → List Char
  | [] => []
  | c :: cs =>
    (if c = 'Σ' then
      (if touchesLetter before && !touchesLetter cs then ['ς'] else ['σ'])
    else smallChar c) ++ lowerAfter (c :: before) cs

/-- The lower case of a text. -/
def lower (cs : List Char) : List Char :=
  lowerAfter [] cs

end Slipbox.Text

namespace Slipbox

/-- The lower case of a text. -/
def Text.lowercase (s : String) : String :=
  String.ofList (Text.lower s.toList)

end Slipbox
