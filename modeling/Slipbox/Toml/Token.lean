/-! The tokens of a TOML text. A carriage return before a line feed belongs to the line end. -/

namespace Slipbox.Toml

inductive Token where
  | newline
  | space (count : Nat) (plain : Bool)
  | comment
  | equals
  | period
  | comma
  | colon
  | plus
  | lbrace | rbrace
  | lbracket | rbracket
  /-- A bare key, a number, a truth value or a part of a date. -/
  | word (cs : List Char)
  | string (text : String) (multiline : Bool)
  deriving DecidableEq, Repr

def isWordChar (c : Char) : Bool :=
  c.isAlphanum || c == '-' || c == '_'

/-- The text with one character for every line end. -/
def foldLineEnds : List Char → List Char
  | '\r' :: '\n' :: cs => '\n' :: foldLineEnds cs
  | c :: cs => c :: foldLineEnds cs
  | [] => []

/-- The characters that a comment may hold. -/
def isCommentChar (c : Char) : Bool :=
  c == '\t' || 0x20 ≤ c.toNat

/-- The characters that a string may hold. -/
def isStringChar (c : Char) : Bool :=
  c == '\t' || (0x20 ≤ c.toNat && c.toNat != 0x7f)

private def hexValue? (c : Char) : Option Nat :=
  if c.isDigit then some (c.toNat - '0'.toNat)
  else if 'a' ≤ c ∧ c ≤ 'f' then some (c.toNat - 'a'.toNat + 10)
  else if 'A' ≤ c ∧ c ≤ 'F' then some (c.toNat - 'A'.toNat + 10)
  else none

/-- The character whose code the first `count` hexadecimal digits give. -/
private def codedChar? (count : Nat) (cs : List Char) : Option Char := do
  let ds := cs.take count
  if ds.length < count then none
  else
    let n ← ds.foldlM (fun n d => (hexValue? d).map (16 * n + ·)) 0
    if h : n.isValidChar then some (Char.ofNatAux n h) else none

/-- What follows a backslash at the end of a line: the white space before the next text is left out.
-/
def skipJoin? (cs : List Char) : Option (List Char) :=
  let isBlank (c : Char) : Bool := c == ' ' || c == '\t'
  match cs.dropWhile isBlank with
  | [] => some []
  | '\n' :: rest => some (rest.dropWhile fun c => isBlank c || c == '\n')
  | _ => none

/-- What the escape behind a backslash stands for, and what follows it. -/
def escape? (multiline : Bool) (cs : List Char) : Option (List Char × List Char) :=
  match cs with
  | '"' :: cs => some (['"'], cs)
  | '\\' :: cs => some (['\\'], cs)
  | 'b' :: cs => some (['\x08'], cs)
  | 'f' :: cs => some (['\x0c'], cs)
  | 'n' :: cs => some (['\n'], cs)
  | 'r' :: cs => some (['\r'], cs)
  | 't' :: cs => some (['\t'], cs)
  | 'u' :: cs => (codedChar? 4 cs).map fun c => ([c], cs.drop 4)
  | 'U' :: cs => (codedChar? 8 cs).map fun c => ([c], cs.drop 8)
  | c :: _ =>
    if multiline ∧ (c = ' ' ∨ c = '\t' ∨ c = '\n') then (skipJoin? cs).map fun rest => ([], rest)
    else none
  | [] => none

/-- The rest of a string, and what follows its closing quotes. Up to two quotes just before the
three that close a multi-line string belong to it. -/
def stringRest? (quote : Char) (multiline : Bool) :
    (fuel : Nat) → List Char → Option (List Char × List Char)
  | 0, _ => none
  | n + 1, cs =>
    match cs with
    | [] => none
    | c :: cs =>
      let add (text rest : List Char) : Option (List Char × List Char) :=
        (stringRest? quote multiline n rest).map fun (more, rest) => (text ++ more, rest)
      if c = '\n' then if multiline then add ['\n'] cs else none
      else if c = quote then
        if multiline then
          let closing := (cs.takeWhile (· == quote)).length
          if closing < 2 then add [quote] cs
          else
            let extra := min 2 (closing - 2)
            some (List.replicate extra quote, cs.drop (2 + extra))
        else some ([], cs)
      else if quote = '"' ∧ c = '\\' then
        match escape? multiline cs with
        | some (text, rest) => add text rest
        | none => none
      else if isStringChar c then add [c] cs
      else none

/-- A string behind its first quote. Three quotes open a multi-line string, whose text does not
begin with a line end. -/
def string? (quote : Char) (cs : List Char) : Option (Token × List Char) :=
  let fuel := cs.length + 1
  let short := (stringRest? quote false fuel cs).map fun (t, rest) =>
    (.string (String.ofList t) false, rest)
  match cs with
  | a :: b :: rest =>
    if a = quote ∧ b = quote then
      let rest := match rest with
        | '\n' :: rest => rest
        | rest => rest
      (stringRest? quote true fuel rest).map fun (t, rest) => (.string (String.ofList t) true, rest)
    else short
  | _ => short

/-- The token at the head of `c :: cs`. -/
def next? (c : Char) (cs : List Char) : Option (Token × List Char) :=
  match c with
  | '\n' => some (.newline, cs)
  | ' ' | '\t' =>
    let blanks := c :: cs.takeWhile fun x => x == ' ' || x == '\t'
    some (.space blanks.length (blanks.all (· == ' ')), cs.drop (blanks.length - 1))
  | '#' => some (.comment, cs.dropWhile isCommentChar)
  | '=' => some (.equals, cs)
  | '.' => some (.period, cs)
  | ',' => some (.comma, cs)
  | ':' => some (.colon, cs)
  | '+' => some (.plus, cs)
  | '{' => some (.lbrace, cs)
  | '}' => some (.rbrace, cs)
  | '[' => some (.lbracket, cs)
  | ']' => some (.rbracket, cs)
  | '\'' => string? '\'' cs
  | '"' => string? '"' cs
  | c =>
    if isWordChar c then some (.word (c :: cs.takeWhile isWordChar), cs.dropWhile isWordChar)
    else none

def tokensFrom? : (fuel : Nat) → List Char → Option (List Token)
  | _, [] => some []
  | 0, _ => none
  | n + 1, c :: cs => do
    let (t, rest) ← next? c cs
    some (t :: (← tokensFrom? n rest))

/-- The tokens of a text, which may start with a byte order mark. Each takes at least one character,
so their number is fuel enough. -/
def tokens? (text : List Char) : Option (List Token) :=
  let cs := foldLineEnds (match text with
    | '\ufeff' :: cs => cs
    | cs => cs)
  tokensFrom? cs.length cs

end Slipbox.Toml
