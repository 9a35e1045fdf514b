/-! Patterns for paths. A pattern is held against the UTF-8 bytes of a path: `?` and `*` stand for
bytes other than a slash, and `**` between slashes for any directories. -/

namespace Slipbox.Glob

inductive Part where
  | byte (b : UInt8)
  /-- One byte that is no slash. -/
  | any
  /-- Any number of bytes that are no slashes. -/
  | star
  /-- Any directories at the start of a path, or none. -/
  | outer
  /-- A slash, or two with anything between them. -/
  | between
  /-- A slash and anything behind it. -/
  | inner
  | oneOf (negated : Bool) (ranges : List (UInt8 × UInt8))
  | choice (branches : List (List Part))
  deriving Inhabited

abbrev Bytes := List UInt8

def slash : UInt8 := 0x2f

def bytes (c : Char) : Bytes :=
  (String.singleton c).toUTF8.toList

/-! Matching. -/

/-- What follows each slash. -/
def afterSlashes : Bytes → List Bytes
  | [] => []
  | b :: s => if b = slash then s :: afterSlashes s else afterSlashes s

/-- What is left after any number of bytes. -/
def suffixes : Bytes → List Bytes
  | [] => [[]]
  | b :: s => (b :: s) :: suffixes s

/-- What is left after any number of bytes that are no slashes. -/
def suffixesWithin : Bytes → List Bytes
  | [] => [[]]
  | b :: s => (b :: s) :: if b = slash then [] else suffixesWithin s

/-- What follows the first byte, if `p` holds of it. -/
def afterByte (p : UInt8 → Bool) : Bytes → List Bytes
  | [] => []
  | b :: s => if p b then [s] else []

mutual

/-- What may be left of a text once a part has matched the start of it. -/
def Part.rests : Part → Bytes → List Bytes
  | .byte b, s => afterByte (· == b) s
  | .any, s => afterByte (· != slash) s
  | .star, s => suffixesWithin s
  | .outer, s => s :: afterSlashes s
  | .between, s => (afterByte (· == slash) s).flatMap fun t => t :: afterSlashes t
  | .inner, s => (afterByte (· == slash) s).flatMap suffixes
  | .oneOf negated ranges, s =>
    afterByte (fun b => (ranges.any fun r => r.1 ≤ b && b ≤ r.2) != negated) s
  | .choice branches, s => restsOfAny branches s

/-- What may be left of texts once all parts have matched one after the other. -/
def restsOfAll : List Part → List Bytes → List Bytes
  | [], ss => ss
  | p :: ps, ss => restsOfAll ps (ss.flatMap p.rests).eraseDups

/-- What may be left of a text once one of the branches has matched. -/
def restsOfAny : List (List Part) → Bytes → List Bytes
  | [], _ => []
  | b :: bs, s => restsOfAll b [s] ++ restsOfAny bs s

end

/-- Whether the parts match a whole path. Directories alone stand for every path. -/
def isMatch (ps : List Part) (path : Bytes) : Bool :=
  match ps with
  | [.outer] => true
  | ps => (restsOfAll ps [path]).any List.isEmpty

/-! Reading. -/

/-- The parts of a group that is being read, the last one first in each list. -/
structure Draft where
  parts : List Part
  branches : List (List Part)

namespace Draft

def empty : Draft := ⟨[], []⟩

def push (d : Draft) (p : Part) : Draft :=
  { d with parts := p :: d.parts }

def pushChar (d : Draft) (c : Char) : Draft :=
  (bytes c).foldl (fun d b => d.push (.byte b)) d

/-- Starts the next branch. -/
def branch (d : Draft) : Draft :=
  ⟨[], d.parts.reverse :: d.branches⟩

/-- A finished group as a part of the group around it. Empty branches do not count, but a group
without other ones stands for the empty text. -/
def close (d outer : Draft) : Draft :=
  match d.branch.branches.reverse.filter fun b => !b.isEmpty with
  | [] => outer.push (.choice [[]])
  | branches => outer.push (.choice branches)

end Draft

/-- A character class behind its opening bracket. -/
inductive ClassEnd where
  /-- A range that runs backwards. -/
  | invalid
  | unclosed
  | closed (ranges : List (Char × Char)) (rest : List Char)

/-- Reads the members of a class, of which those read so far are given, the last one first. A
closing bracket or a hyphen in the first place stands for itself, and so does a hyphen in the last
one. -/
def classEnd (ranges : List (Char × Char)) (ranging : Bool) : List Char → ClassEnd
  | [] => .unclosed
  | c :: cs =>
    if ranges.isEmpty then classEnd [(c, c)] false cs
    else if c = ']' then .closed (if ranging then ('-', '-') :: ranges else ranges) cs
    else if ranging then
      match ranges with
      | (low, _) :: ranges => if c < low then .invalid else classEnd ((low, c) :: ranges) false cs
      | [] => .unclosed
    else if c = '-' then classEnd ranges true cs
    else classEnd ((c, c) :: ranges) false cs

/-- A range of characters as ranges of the bytes that they are written in. -/
def byteRanges (r : Char × Char) : List (UInt8 × UInt8) :=
  let low := bytes r.1
  let high := bytes r.2
  if r.1 = r.2 then low.map fun b => (b, b)
  else
    (low.dropLast ++ high.drop 1).map (fun b => (b, b)) ++
      (low.getLast?.toList.zip high.head?.toList)

/-- Two stars behind which `cs` follows; also gives the character before the rest. Between slashes,
at the start and at the end they stand for directories, elsewhere for one star. -/
def doubleStar (d : Draft) (prev : Option Char) (grouped : Bool) (cs : List Char) :
    Draft × Option Char × List Char :=
  let plain := (d.push .star, some '*', cs)
  if d.parts.isEmpty then
    match cs with
    | [] => (d.push .outer, some '*', [])
    | '/' :: cs => (d.push .outer, some '/', cs)
    | _ => plain
  else if prev ≠ some '/' then plain
  else
    let instead (p : Part) : Draft :=
      match d.parts with
      | .outer :: _ | .inner :: _ => d
      | _ :: parts => { d with parts := p :: parts }
      | [] => d.push p
    match cs with
    | [] => (instead .inner, some '*', [])
    | '/' :: cs => (instead .between, some '/', cs)
    | c :: _ => if grouped ∧ (c = ',' ∨ c = '}') then (instead .inner, some '*', cs) else plain

/-- Reads on within the groups whose drafts are given, from the innermost one outwards. -/
def parseFrom? : (fuel : Nat) → (prev : Option Char) → Draft → (around : List Draft) →
    List Char → Option (List Part)
  | _, _, d, around, [] => if around.isEmpty then some d.parts.reverse else none
  | 0, _, _, _, _ => none
  | n + 1, prev, d, around, c :: cs =>
    match c with
    | '?' => parseFrom? n (some c) (d.push .any) around cs
    | '*' =>
      match cs with
      | '*' :: cs =>
        let (d, prev, cs) := doubleStar d prev (!around.isEmpty) cs
        parseFrom? n prev d around cs
      | cs => parseFrom? n (some c) (d.push .star) around cs
    | '[' =>
      let (negated, body) := match cs with
        | '!' :: body | '^' :: body => (true, body)
        | body => (false, body)
      match classEnd [] false body with
      | .invalid => none
      | .unclosed => parseFrom? n (some c) (d.pushChar c) around cs
      | .closed ranges rest =>
        parseFrom? n (some ']') (d.push (.oneOf negated (ranges.flatMap byteRanges))) around rest
    | '{' => parseFrom? n (some c) .empty (d :: around) cs
    | '}' =>
      match around with
      | [] => none
      | outer :: around => parseFrom? n (some c) (d.close outer) around cs
    | ',' => parseFrom? n (some c) (if around.isEmpty then d.pushChar c else d.branch) around cs
    | '\\' =>
      match cs with
      | [] => none
      | e :: cs => parseFrom? n (some e) (d.pushChar e) around cs
    | c => parseFrom? n (some c) (d.pushChar c) around cs

/-- Reads a pattern. Each step takes at least one character, so their number is fuel enough. -/
def parse? (pattern : List Char) : Option (List Part) :=
  parseFrom? pattern.length none .empty [] pattern

end Slipbox.Glob
