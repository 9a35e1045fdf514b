import Slipbox.Index
import Slipbox.Text.Blank
import Slipbox.Text.Pattern

/-! What the body of a document says about it: its first heading, its inline tags and its links. -/

namespace Slipbox.Document

/-- The text of the first heading of the top level, unless it is blank. -/
def heading? (body : List Char) : Option String :=
  match (Text.lines body).findSome? (Text.after? ['#', ' ']) with
  | none => none
  | some h =>
    match Text.trim h with
    | [] => none
    | t => some (String.ofList t)

/-! Inline tags. -/

def isTagChar (c : Char) : Bool :=
  c.isAlphanum || c == '_' || c == '/' || c == '-'

/-- The tag behind a hash sign: a letter and the letters, digits and marks after it. -/
def tag? : List Char → Option (List Char)
  | '#' :: c :: cs => if c.isAlpha then some (c :: cs.takeWhile isTagChar) else none
  | _ => none

/-- A tag in a text: it stands at the start of the body or behind white space, whose last character
the match takes along. -/
def tagPattern : Text.Pattern where
  match? atStart cs :=
    let here := if atStart then tag? cs else none
    let behind := match cs with
      | c :: cs => if Text.isBlank c then tag? cs else none
      | [] => none
    (here.map fun tag => ⟨tag, tag.length + 1⟩).or (behind.map fun tag => ⟨tag, tag.length + 2⟩)

def inlineTags (body : List Char) : List String :=
  (tagPattern.parts body).map String.ofList

/-! Links. -/

/-- What may stand within the brackets of a link. -/
def isInner (c : Char) : Bool :=
  c != '[' && c != ']'

/-- The text within double brackets that open here. -/
def inner? : List Char → Option (List Char)
  | '[' :: '[' :: cs =>
    let inner := cs.takeWhile isInner
    match cs.dropWhile isInner with
    | ']' :: ']' :: _ => if inner.isEmpty then none else some inner
    | _ => none
  | _ => none

/-- A link, or with an exclamation mark in front what is shown in its place. -/
def linkPattern : Text.Pattern where
  match? _ cs :=
    match cs with
    | '!' :: cs => (inner? cs).map fun inner => ⟨inner, inner.length + 5⟩
    | cs => (inner? cs).map fun inner => ⟨inner, inner.length + 4⟩

/-- The target of a link: what stands before an alias and before a heading. -/
def target (inner : List Char) : List Char :=
  Text.trim ((inner.takeWhile (· != '|')).takeWhile (· != '#'))

/-- The targets of the links of a body, each once, in order of first appearance. -/
def links (body : List Char) : List String :=
  (((linkPattern.parts body).map target).filter (!·.isEmpty) |>.map String.ofList).eraseDups

end Slipbox.Document
