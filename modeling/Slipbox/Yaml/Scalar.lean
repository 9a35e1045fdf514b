import Slipbox.Yaml.Cursor

/-! The texts of scalars. A plain or quoted scalar may run over several lines: a single line end
then becomes a space, and further ones stay. A block scalar keeps its lines or folds them, and its
header says what becomes of the line ends after it. -/

namespace Slipbox.Yaml

/-- Line ends as they are gathered: the first one, and those after it. -/
structure Breaks where
  first : List Char
  more : List Char

namespace Breaks

def none : Breaks := ⟨[], []⟩

/-- What line ends between words become. -/
def folded (b : Breaks) : List Char :=
  if b.first == ['\n'] then
    if b.more.isEmpty then [' '] else b.more
  else b.first ++ b.more

end Breaks

/-- What stands between two words of a scalar: blanks within a line, or line ends and the
indentation after them. -/
structure Gap where
  blanks : List Char
  breaks : Breaks
  /-- Whether a line has ended. -/
  broken : Bool

namespace Gap

def none : Gap := ⟨[], .none, false⟩

/-- What the gap becomes in the text. -/
def text (g : Gap) : List Char :=
  if g.broken then g.breaks.folded else g.blanks

end Gap

/-- Passes blanks and line ends. A tab in the indentation of a later line, left of `indent`, is
refused. -/
def readGap? (indent : Option Int) : (fuel : Nat) → Gap → Cursor → Option (Gap × Cursor)
  | 0, g, c => some (g, c)
  | n + 1, g, c =>
    match c.head? with
    | Option.none => some (g, c)
    | some x =>
      if isBlank x then
        if g.broken && x == '\t' && indent.any fun i => (c.column : Int) < i then Option.none
        else
          let g := if g.broken then g else { g with blanks := g.blanks ++ [x] }
          readGap? indent n g (c.skip 1)
      else if isBreak x then
        let (b, c) := c.readLineEnd
        let breaks : Breaks :=
          if g.broken then { g.breaks with more := g.breaks.more ++ b }
          else { g.breaks with first := b }
        readGap? indent n ⟨[], breaks, true⟩ c
      else some (g, c)

/-! Plain scalars. -/

/-- Where a flow collection is open, these end a plain scalar. -/
def isFlowMark (c : Char) : Bool :=
  c == ',' || c == '[' || c == ']' || c == '{' || c == '}'

/-- The characters of a plain scalar up to a blank, a line end or a mark; refused is a colon before
a mark of a flow collection. -/
def plainWord? (flow : Bool) : (fuel : Nat) → Cursor → Option (List Char × Cursor)
  | 0, c => some ([], c)
  | n + 1, c =>
    match c.head? with
    | none => some ([], c)
    | some x =>
      if isBlank x || isBreak x then some ([], c)
      else if flow && x == ':' && (c.at? 1).any fun y => isFlowMark y || y == '?' then none
      else if (x == ':' && c.endsWord 1) || (flow && isFlowMark x) then some ([], c)
      else (plainWord? flow n (c.skip 1)).map fun (w, c) => (x :: w, c)

/-- The words of a plain scalar behind the gap before them. -/
def plainFrom? (flow : Bool) (indent : Int) :
    (fuel : Nat) → List Char → Gap → Cursor → Option (List Char × Bool × Cursor)
  | 0, text, g, c => some (text, g.broken, c)
  | n + 1, text, g, c => do
    if c.atDocumentMarks || c.sees '#' 0 then some (text, g.broken, c)
    else
      let (w, c') ← plainWord? flow c.rest.length c
      let text := if w.isEmpty then text else text ++ g.text ++ w
      let g := if w.isEmpty then g else .none
      if !(c'.seesHead fun x => isBlank x || isBreak x) then some (text, g.broken, c')
      else
        let (g, c) ← readGap? (some indent) c'.rest.length g c'
        if !flow && (c.column : Int) < indent then some (text, g.broken, c)
        else plainFrom? flow indent n text g c

/-- A plain scalar: its text, whether a line has ended after it, and what follows. -/
def plain? (flow : Bool) (indent : Int) (c : Cursor) : Option (List Char × Bool × Cursor) :=
  plainFrom? flow indent (c.rest.length + 1) [] .none c

/-! Quoted scalars. -/

private def hexValue? (c : Char) : Option Nat :=
  if c.isDigit then some (c.toNat - '0'.toNat)
  else if 'a' ≤ c ∧ c ≤ 'f' then some (c.toNat - 'a'.toNat + 10)
  else if 'A' ≤ c ∧ c ≤ 'F' then some (c.toNat - 'A'.toNat + 10)
  else none

/-- The character whose code the first `count` hexadecimal digits give. -/
def codedChar? (count : Nat) (cs : List Char) : Option Char := do
  let ds := cs.take count
  if ds.length < count then none
  else
    let n ← ds.foldlM (fun n d => (hexValue? d).map (16 * n + ·)) 0
    if h : n.isValidChar then some (Char.ofNatAux n h) else none

/-- The character that the sign after a backslash stands for. -/
def escaped? : Char → Option Char
  | '0' => some '\x00'
  | 'a' => some '\x07'
  | 'b' => some '\x08'
  | 't' | '\t' => some '\t'
  | 'n' => some '\n'
  | 'v' => some '\x0b'
  | 'f' => some '\x0c'
  | 'r' => some '\r'
  | 'e' => some '\x1b'
  | ' ' => some ' '
  | '"' => some '"'
  | '/' => some '/'
  | '\\' => some '\\'
  | 'N' => some '\u0085'
  | '_' => some '\u00a0'
  | 'L' => some '\u2028'
  | 'P' => some '\u2029'
  | _ => none

/-- The character that a backslash starts, and what follows it. -/
def escape? (c : Cursor) : Option (Char × Cursor) := do
  let sign ← c.at? 1
  let coded (count : Nat) : Option (Char × Cursor) :=
    (codedChar? count (c.rest.drop 2)).map fun x => (x, c.skip (2 + count))
  match sign with
  | 'x' => coded 2
  | 'u' => coded 4
  | 'U' => coded 8
  | _ => (escaped? sign).map fun x => (x, c.skip 2)

/-- The characters of a quoted scalar up to a blank, a line end or the closing quote. A backslash at
the end of a line takes the line end away; that this happened is the second part of the result. -/
def quotedWord? (quote : Char) : (fuel : Nat) → Cursor → Option (List Char × Bool × Cursor)
  | 0, c => some ([], false, c)
  | n + 1, c =>
    match c.head? with
    | none => some ([], false, c)
    | some x =>
      let add (y : Char) (c : Cursor) : Option (List Char × Bool × Cursor) :=
        (quotedWord? quote n c).map fun (w, joined, c) => (y :: w, joined, c)
      if isBlank x || isBreak x then some ([], false, c)
      else if quote == '\'' && x == '\'' && c.sees '\'' 1 then add '\'' (c.skip 2)
      else if x == quote then some ([], false, c)
      else if quote == '"' && x == '\\' then
        if (c.at? 1).any isBreak then some ([], true, (c.skip 1).skipLineEnd)
        else
          match escape? c with
          | some (y, c) => add y c
          | none => none
      else add x (c.skip 1)

/-- The rest of a quoted scalar, and what follows its closing quote. -/
def quotedFrom? (quote : Char) : (fuel : Nat) → Cursor → Option (List Char × Cursor)
  | 0, _ => none
  | n + 1, c => do
    if c.atDocumentMarks || c.rest.isEmpty then none
    else
      let (w, joined, c) ← quotedWord? quote c.rest.length c
      if c.sees quote 0 then some (w, c.skip 1)
      else
        let (g, c) ← readGap? none c.rest.length { Gap.none with broken := joined } c
        let (rest, c) ← quotedFrom? quote n c
        some (w ++ g.text ++ rest, c)

/-- A scalar in quotes, from the opening one. -/
def quoted? (c : Cursor) : Option (List Char × Cursor) := do
  let quote ← c.head?
  quotedFrom? quote (c.rest.length + 1) (c.skip 1)

/-! Block scalars. -/

/-- What becomes of the line ends after a block scalar. -/
inductive Chomping where
  | strip | clip | keep
  deriving DecidableEq, Repr

structure BlockHeader where
  chomping : Chomping
  /-- The indentation relative to the surrounding block, if it is given. -/
  indent : Option Nat

private def chomping? (c : Cursor) : Option (Chomping × Cursor) :=
  if c.sees '+' 0 then some (.keep, c.skip 1)
  else if c.sees '-' 0 then some (.strip, c.skip 1)
  else none

/-- A digit other than zero, if a digit stands here. -/
private def increment? (c : Cursor) : Option (Option Nat × Cursor) :=
  match c.head? with
  | some d =>
    if d == '0' then none
    else if d.isDigit then some (some (d.toNat - '0'.toNat), c.skip 1)
    else some (none, c)
  | none => some (none, c)

/-- The signs after the mark of a block scalar, in either order. -/
def blockHeader? (c : Cursor) : Option (BlockHeader × Cursor) := do
  match chomping? c with
  | some (ch, c) =>
    let (i, c) ← increment? c
    some (⟨ch, i⟩, c)
  | none =>
    let (i, c) ← increment? c
    if i.isNone then some (⟨.clip, i⟩, c)
    else
      match chomping? c with
      | some (ch, c) => some (⟨ch, i⟩, c)
      | none => some (⟨.clip, i⟩, c)

/-- Passes empty lines and indentation. Gives the line ends and the widest indentation seen; a tab
in the indentation is refused. -/
def blockBreaks? (indent : Option Nat) :
    (fuel : Nat) → (widest : Nat) → Cursor → Option (List Char × Nat × Cursor)
  | 0, widest, c => some ([], widest, c)
  | n + 1, widest, c =>
    let spaces := (c.rest.takeWhile (· == ' ')).length
    let c := c.skip (match indent with
      | some i => min spaces (i - c.column)
      | none => spaces)
    let widest := max widest c.column
    if c.sees '\t' 0 && indent.all (c.column < ·) then none
    else if c.seesHead isBreak then
      let (b, c) := c.readLineEnd
      (blockBreaks? indent n widest c).map fun (more, widest, c) => (b ++ more, widest, c)
    else some ([], widest, c)

/-- The lines of a block scalar. The state is the text so far, the line end of its last line, the
empty lines after that, and whether its last line began with a blank. -/
def blockLines? (literal : Bool) (indent : Nat) : (fuel : Nat) → (text : List Char) → Breaks →
    (blank : Bool) → Cursor → Option (List Char × Breaks × Cursor)
  | 0, text, b, _, c => some (text, b, c)
  | n + 1, text, b, blank, c =>
    if c.column = indent ∧ !c.rest.isEmpty then
      let nowBlank := c.seesHead isBlank
      let joint :=
        if !literal && b.first == ['\n'] && !blank && !nowBlank then
          if b.more.isEmpty then [' '] else b.more
        else b.first ++ b.more
      let line := c.rest.takeWhile fun x => !isBreak x
      let (first, c) := c.skipToLineEnd.readLineEnd
      match blockBreaks? (some indent) (c.rest.length + 1) 0 c with
      | none => none
      | some (more, _, c) =>
        blockLines? literal indent n (text ++ joint ++ line) ⟨first, more⟩ nowBlank c
    else some (text, b, c)

/-- A block scalar from its mark on; `outer` is the indentation of the block around it. -/
def block? (literal : Bool) (outer : Int) (c : Cursor) : Option (List Char × Cursor) := do
  let (header, c) ← blockHeader? (c.skip 1)
  let c ← c.finishLine?
  let given := header.indent.map fun i => if 0 ≤ outer then outer.toNat + i else i
  let (more, widest, c) ← blockBreaks? given (c.rest.length + 1) 0 c
  let indent := given.getD (max widest (max (outer + 1).toNat 1))
  let (text, b, c) ← blockLines? literal indent (c.rest.length + 1) [] ⟨[], more⟩ false c
  some (match header.chomping with
    | .strip => text
    | .clip => text ++ b.first
    | .keep => text ++ b.first ++ b.more, c)

end Slipbox.Yaml
