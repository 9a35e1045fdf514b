import Slipbox.Yaml.Scalar

/-! The tokens of a YAML text. Blocks have no marks of their own: they start where a sequence mark,
a key or a value stands further to the right than the block around it, and end where a later token
stands further to the left. A key before a colon is known as such only when the colon comes, so the
place where a key may have started is remembered, and its tokens are put in there afterwards. -/

namespace Slipbox.Yaml

inductive Token where
  | versionDirective (major minor : Nat)
  | tagDirective (handle lead : String)
  | documentStart
  | documentEnd
  | blockSequenceStart
  | blockMappingStart
  | blockEnd
  | flowSequenceStart
  | flowSequenceEnd
  | flowMappingStart
  | flowMappingEnd
  | blockEntry
  | flowEntry
  | key
  | value
  | reference (name : String)
  | anchor (name : String)
  | tag (handle suffix : String)
  | scalar (text : String) (plain : Bool)
  deriving DecidableEq, Repr

/-- A place where a key may have started. -/
structure KeyStart where
  /-- The number of tokens before it. -/
  token : Nat
  index : Nat
  line : Nat
  column : Nat
  /-- Whether nothing else may start there. -/
  required : Bool

/-- The state of reading tokens. -/
structure Scanner where
  cursor : Cursor
  tokens : Array Token
  /-- The columns of the open blocks, the innermost first. -/
  blocks : List Nat
  /-- For every open flow collection and what surrounds them all, the innermost first, the place
  where a key may have started. -/
  keys : List (Option KeyStart)
  keyAllowed : Bool

namespace Scanner

def ofText (cs : List Char) : Scanner :=
  ⟨.ofText cs, #[], [], [none], true⟩

/-- Whether a flow collection is open. -/
def inFlow (s : Scanner) : Bool :=
  1 < s.keys.length

/-- The column of the innermost block; left of everything if there is none. -/
def indent (s : Scanner) : Int :=
  match s.blocks with
  | [] => -1
  | column :: _ => column

def push (s : Scanner) (t : Token) : Scanner :=
  { s with tokens := s.tokens.push t }

/-- Puts a token before the one of the given number. -/
def insertAt (s : Scanner) (n : Nat) (t : Token) : Scanner :=
  { s with tokens := s.tokens.extract 0 n ++ #[t] ++ s.tokens.extract n s.tokens.size }

/-- Passes characters of the line that make up a token. -/
def take (s : Scanner) (n : Nat) (t : Token) : Scanner :=
  { s.push t with cursor := s.cursor.skip n }

/-- Opens a block at a column that lies further right than the innermost block. The token goes
before the one of the given number. -/
def openBlock (s : Scanner) (column n : Nat) (t : Token) : Scanner :=
  if !s.inFlow && s.indent < column then
    { s.insertAt n t with blocks := column :: s.blocks }
  else s

/-- Closes the blocks that lie further right than a column. -/
def closeBlocks (s : Scanner) (column : Int) : Scanner :=
  if s.inFlow then s
  else
    let closed := s.blocks.takeWhile fun (b : Nat) => column < b
    { s with
      tokens := s.tokens ++ Array.replicate closed.length .blockEnd
      blocks := s.blocks.drop closed.length }

/-- Gives up the place of a key; refused if only a key could have started there. -/
def dropKey? (s : Scanner) : Option Scanner :=
  match s.keys with
  | some k :: keys => if k.required then none else some { s with keys := none :: keys }
  | _ => some s

/-- Remembers that a key may start here. -/
def saveKey? (s : Scanner) : Option Scanner :=
  if s.keyAllowed then do
    let s ← s.dropKey?
    let c := s.cursor
    let k : KeyStart :=
      ⟨s.tokens.size, c.index, c.line, c.column, !s.inFlow && s.indent == c.column⟩
    some { s with keys := some k :: s.keys.tail }
  else some s

/-- A key ends on the line where it starts and has at most a thousand and twenty-four characters;
the places of keys that can no longer end are given up. -/
def dropStaleKeys? (s : Scanner) : Option Scanner := do
  let keys ← s.keys.mapM fun
    | some k =>
      if k.line < s.cursor.line ∨ k.index + 1024 < s.cursor.index then
        if k.required then none else some none
      else some (some k)
    | none => some none
  some { s with keys }

/-- Passes white space and comments. Tabs do not count as white space where they could be taken for
indentation; outside of flow collections a key may start on every new line. -/
def skipSpace (s : Scanner) : (fuel : Nat) → Scanner
  | 0 => s
  | n + 1 =>
    let c := s.cursor
    let c := if c.column == 0 && c.sees '\ufeff' 0 then c.skip 1 else c
    let c := c.skipWhile fun x => x == ' ' || ((s.inFlow || !s.keyAllowed) && x == '\t')
    let c := if c.sees '#' 0 then c.skipToLineEnd else c
    if c.seesHead isBreak then
      skipSpace { s with cursor := c.skipLineEnd, keyAllowed := s.keyAllowed || !s.inFlow } n
    else { s with cursor := c }

/-! Names, tags and directives. -/

/-- The name of an anchor or alias behind its mark. -/
def name? (c : Cursor) : Option (String × Cursor) :=
  let c := c.skip 1
  let name := c.rest.takeWhile isNameChar
  let after := c.skip name.length
  if name.isEmpty then none
  else if after.endsWord 0 ||
      after.seesHead fun x => x ∈ ['?', ':', ',', ']', '}', '%', '@', '\x60']
    then some (String.ofList name, after)
  else none

private def hexOctet? (cs : List Char) : Option Nat :=
  match cs with
  | '%' :: cs => (codedChar? 2 cs).map Char.toNat
  | _ => none

/-- The number of octets of a character whose first octet is given. -/
private def octets? (first : Nat) : Option Nat :=
  if first < 0x80 then some 1
  else if first / 32 = 6 then some 2
  else if first / 16 = 14 then some 3
  else if first / 8 = 30 then some 4
  else none

/-- One character that a tag gives by its octets, each as a percent sign and two digits. A character
of more than one octet is given back as its octets. -/
def uriEscape? (c : Cursor) : Option (List Char × Cursor) := do
  let first ← hexOctet? c.rest
  let count ← octets? first
  let others ← (List.range (count - 1)).mapM fun i => do
    let n ← hexOctet? (c.rest.drop (3 * (i + 1)))
    if n / 64 = 2 then some n else none
  some ((first :: others).map Char.ofNat, c.skip (3 * count))

def isUriChar (verbatim : Bool) (x : Char) : Bool :=
  isNameChar x ||
    x ∈ [';', '/', '?', ':', '@', '&', '=', '+', '$', '.', '%', '!', '~', '*', '\'', '(', ')'] ||
    (verbatim && x ∈ [',', '[', ']'])

/-- The characters of a tag from here on. -/
def uri? (verbatim : Bool) : (fuel : Nat) → Cursor → Option (List Char × Cursor)
  | 0, c => some ([], c)
  | n + 1, c =>
    match c.head? with
    | none => some ([], c)
    | some x =>
      if x == '%' then do
        let (ys, c) ← uriEscape? c
        let (more, c) ← uri? verbatim n c
        some (ys ++ more, c)
      else if isUriChar verbatim x then
        (uri? verbatim n (c.skip 1)).map fun (more, c) => (x :: more, c)
      else some ([], c)

/-- The handle of a tag: an exclamation mark, or a name between two of them. A lone name behind one
is no handle yet. -/
def handle? (c : Cursor) : Option (List Char × Cursor) :=
  if c.sees '!' 0 then
    let name := (c.rest.drop 1).takeWhile isNameChar
    let c := c.skip (1 + name.length)
    if c.sees '!' 0 then some ('!' :: name ++ ['!'], c.skip 1) else some ('!' :: name, c)
  else none

/-- A tag: its handle and the rest of it. A verbatim tag has no handle, nor has the lone mark. -/
def tag? (flow : Bool) (c : Cursor) : Option (Token × Cursor) := do
  let (handle, suffix, c) ←
    if c.sees '<' 1 then do
      let c := c.skip 2
      let (uri, c) ← uri? true c.rest.length c
      if uri.isEmpty || !c.sees '>' 0 then none else some ([], uri, c.skip 1)
    else do
      let (handle, c) ← handle? c
      if 1 < handle.length ∧ handle.getLast? = some '!' then
        let (suffix, c) ← uri? false c.rest.length c
        if suffix.isEmpty then none else some (handle, suffix, c)
      else
        let (more, c) ← uri? false c.rest.length c
        let suffix := handle.drop 1 ++ more
        if suffix.isEmpty then some ([], ['!'], c) else some (['!'], suffix, c)
  if c.endsWord 0 || (flow && c.sees ',' 0) then
    some (.tag (String.ofList handle) (String.ofList suffix), c)
  else none

/-- A part of a version number. -/
private def versionPart? (c : Cursor) : Option (Nat × Cursor) :=
  let ds := c.rest.takeWhile Char.isDigit
  if ds.isEmpty ∨ 9 < ds.length then none
  else some (ds.foldl (fun n d => 10 * n + (d.toNat - '0'.toNat)) 0, c.skip ds.length)

/-- A directive with its line. -/
def directive? (c : Cursor) : Option (Token × Cursor) := do
  let c := c.skip 1
  let name := c.rest.takeWhile isNameChar
  let c := c.skip name.length
  if name.isEmpty || !c.endsWord 0 then none
  else
    let c := c.skipWhile isBlank
    let (t, c) ←
      if name = "YAML".toList then do
        let (major, c) ← versionPart? c
        if c.sees '.' 0 then
          let (minor, c) ← versionPart? (c.skip 1)
          some (.versionDirective major minor, c)
        else none
      else if name = "TAG".toList then do
        let (handle, c) ← handle? c
        if handle ≠ ['!'] ∧ (handle.length = 1 ∨ handle.getLast? ≠ some '!') then none
        else if c.seesHead isBlank then
          let c := c.skipWhile isBlank
          let (lead, c) ← uri? true c.rest.length c
          if lead.isEmpty || !c.endsWord 0 then none
          else some (Token.tagDirective (String.ofList handle) (String.ofList lead), c)
        else none
      else none
    some (t, ← c.finishLine?)

/-! The tokens one by one. -/

/-- Leaves all blocks, as at the bounds of a document. -/
def leaveBlocks? (s : Scanner) : Option Scanner := do
  let s ← (s.closeBlocks (-1)).dropKey?
  some { s with keyAllowed := false }

/-- A token that may be a key or the start of one. -/
def keyToken? (s : Scanner) (read : Cursor → Option (Token × Cursor)) : Option Scanner := do
  let s ← s.saveKey?
  let (t, c) ← read s.cursor
  some { s.push t with cursor := c, keyAllowed := false }

def flowStart? (s : Scanner) (t : Token) : Option Scanner := do
  let s ← s.saveKey?
  some { s.take 1 t with keys := none :: s.keys, keyAllowed := true }

def flowEnd? (s : Scanner) (t : Token) : Option Scanner := do
  let s ← s.dropKey?
  let keys := if s.inFlow then s.keys.tail else s.keys
  some { s.take 1 t with keys, keyAllowed := false }

def blockEntry? (s : Scanner) : Option Scanner := do
  if !s.inFlow && !s.keyAllowed then none
  else
    let s := s.openBlock s.cursor.column s.tokens.size .blockSequenceStart
    let s ← s.dropKey?
    some { s.take 1 .blockEntry with keyAllowed := true }

def keyMark? (s : Scanner) : Option Scanner := do
  if !s.inFlow && !s.keyAllowed then none
  else
    let s := s.openBlock s.cursor.column s.tokens.size .blockMappingStart
    let s ← s.dropKey?
    some { s.take 1 .key with keyAllowed := !s.inFlow }

/-- A colon. If a key may have started before it, that key has now been found. -/
def valueMark? (s : Scanner) : Option Scanner :=
  match s.keys with
  | some k :: keys =>
    let s := (s.insertAt k.token .key).openBlock k.column k.token .blockMappingStart
    some { s.take 1 .value with keys := none :: keys, keyAllowed := false }
  | _ =>
    if s.inFlow then some { s.take 1 .value with keyAllowed := false }
    else if s.keyAllowed then
      let s := s.openBlock s.cursor.column s.tokens.size .blockMappingStart
      some { s.take 1 .value with keyAllowed := true }
    else none

def plainToken? (s : Scanner) : Option Scanner := do
  let s ← s.saveKey?
  let (text, broken, c) ← plain? s.inFlow (s.indent + 1) s.cursor
  some { s.push (.scalar (String.ofList text) true) with cursor := c, keyAllowed := broken }

def blockToken? (s : Scanner) (literal : Bool) : Option Scanner := do
  let s ← s.dropKey?
  let (text, c) ← block? literal s.indent s.cursor
  some { s.push (.scalar (String.ofList text) false) with cursor := c, keyAllowed := true }

/-- The signs with which no plain scalar starts. -/
def isIndicator (x : Char) : Bool :=
  x ∈ ['-', '?', ':', ',', '[', ']', '{', '}', '#', '&', '*', '!', '|', '>', '\'', '"', '%', '@',
    '\x60']

/-- The token that starts with `x`, the character under the cursor. -/
def token? (s : Scanner) (x : Char) : Option Scanner :=
  let c := s.cursor
  let alone := c.endsWord 1
  let flow := s.inFlow
  if c.column == 0 && x == '%' then do
    let s ← s.leaveBlocks?
    let (t, c) ← directive? s.cursor
    some { s.push t with cursor := c }
  else if c.atMarks '-' then (s.leaveBlocks?).map (·.take 3 .documentStart)
  else if c.atMarks '.' then (s.leaveBlocks?).map (·.take 3 .documentEnd)
  else if x == '[' then s.flowStart? .flowSequenceStart
  else if x == '{' then s.flowStart? .flowMappingStart
  else if x == ']' then s.flowEnd? .flowSequenceEnd
  else if x == '}' then s.flowEnd? .flowMappingEnd
  else if x == ',' then
    (s.dropKey?).map fun s => { s.take 1 .flowEntry with keyAllowed := true }
  else if x == '-' && alone then s.blockEntry?
  else if x == '?' && (flow || alone) then s.keyMark?
  else if x == ':' && (flow || alone) then s.valueMark?
  else if x == '*' then s.keyToken? fun c => (name? c).map fun (n, c) => (.reference n, c)
  else if x == '&' then s.keyToken? fun c => (name? c).map fun (n, c) => (.anchor n, c)
  else if x == '!' then s.keyToken? (tag? flow)
  else if x == '|' && !flow then s.blockToken? true
  else if x == '>' && !flow then s.blockToken? false
  else if x == '\'' || x == '"' then
    s.keyToken? fun c => (quoted? c).map fun (t, c) => (.scalar (String.ofList t) false, c)
  else if !(isBlank x || isIndicator x) || (x == '-' && !(c.at? 1).any isBlank) ||
      (!flow && (x == '?' || x == ':') && !alone) then s.plainToken?
  else none

/-- The end of the text. -/
def finish? (s : Scanner) : Option (List Token) := do
  let s ← (s.closeBlocks (-1)).dropKey?
  some s.tokens.toList

/-- Reads tokens up to the end of the text. -/
def run? : (fuel : Nat) → Scanner → Option (List Token)
  | 0, _ => none
  | n + 1, s => do
    let s ← (s.skipSpace (s.cursor.rest.length + 1)).dropStaleKeys?
    let s := s.closeBlocks s.cursor.column
    match s.cursor.head? with
    | none => s.finish?
    | some x =>
      let s ← s.token? x
      run? n s

end Scanner

/-- The tokens of a text. Each takes at least one character, so the number of characters is fuel
enough. -/
def tokens? (cs : List Char) : Option (List Token) :=
  if cs.all isAllowed then (Scanner.ofText cs).run? (cs.length + 1) else none

end Slipbox.Yaml
