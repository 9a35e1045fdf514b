/-! White space as Unicode defines it, the trimming that goes with it, and the cutting of a text
into lines and pieces. Texts are lists of characters here; positions in them are counted in UTF-8
bytes. -/

namespace Slipbox.Text

/-- The Unicode property White_Space. -/
def isBlank (c : Char) : Bool :=
  let n := c.toNat
  (0x9 ≤ n && n ≤ 0xd) || n == 0x20 || n == 0x85 || n == 0xa0 || n == 0x1680 ||
    (0x2000 ≤ n && n ≤ 0x200a) || n == 0x2028 || n == 0x2029 || n == 0x202f || n == 0x205f ||
    n == 0x3000

def trimStart (cs : List Char) : List Char :=
  cs.dropWhile isBlank

def trimEnd (cs : List Char) : List Char :=
  (cs.reverse.dropWhile isBlank).reverse

/-- The text without the white space at its two ends. -/
def trim (cs : List Char) : List Char :=
  trimEnd (trimStart cs)

/-- The number of bytes of the text in UTF-8. -/
def byteLength : List Char → Nat
  | [] => 0
  | c :: cs => c.utf8Size + byteLength cs

/-- The pieces between the members that satisfy `p`: one more than there are such members. -/
def pieces {α : Type} (p : α → Bool) : List α → List (List α)
  | [] => [[]]
  | c :: cs =>
    match pieces p cs with
    | [] => [[c]]
    | piece :: rest => if p c then [] :: piece :: rest else (c :: piece) :: rest

/-- The text after `head`, when it starts with it. -/
def after? : (head text : List Char) → Option (List Char)
  | [], text => some text
  | _ :: _, [] => none
  | h :: hs, c :: cs => if h = c then after? hs cs else none

/-- The text before `tail`, when it ends with it. -/
def before? (tail text : List Char) : Option (List Char) :=
  (after? tail.reverse text.reverse).map List.reverse

/-- The lines of a text without their ends, which are a line feed with at most one carriage return
before it. A line feed at the very end starts no line. -/
def lines (cs : List Char) : List (List Char) :=
  let all := pieces (· == '\n') cs
  let ended := all.dropLast.map fun line => (before? ['\r'] line).getD line
  match all.getLast? with
  | none | some [] => ended
  | some last => ended ++ [last]

/-- The text with `new` in the place of every `c`. -/
def replace (c : Char) (new cs : List Char) : List Char :=
  cs.flatMap fun x => if x = c then new else [x]

end Slipbox.Text

namespace Slipbox

/-- `f` on the characters of a text. -/
def Text.onChars (f : List Char → List Char) (s : String) : String :=
  String.ofList (f s.toList)

end Slipbox
