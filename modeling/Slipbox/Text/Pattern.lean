/-! Searching a text for a pattern. The matches are found from left to right and do not overlap:
behind a match the search goes on where the match ends. -/

namespace Slipbox.Text

/-- What a pattern matches at the start of a text: the part that it singles out, and the number of
characters that the match takes. -/
structure Match where
  part : List Char
  length : Nat

/-- A pattern, given by what it matches at the start of a text. The first argument tells whether the
search begins there, so that no character stands in front. -/
structure Pattern where
  match? : Bool → List Char → Option Match

/-- The parts that the matches single out. The last match takes `covered` characters more. -/
def Pattern.partsFrom (p : Pattern) (atStart : Bool) (covered : Nat) : List Char → List (List Char)
  | [] => []
  | c :: cs =>
    match covered with
    | covered + 1 => p.partsFrom false covered cs
    | 0 =>
      match p.match? atStart (c :: cs) with
      | some m => m.part :: p.partsFrom false (m.length - 1) cs
      | none => p.partsFrom false 0 cs

def Pattern.parts (p : Pattern) (text : List Char) : List (List Char) :=
  p.partsFrom true 0 text

namespace Pattern

variable (p : Pattern)

/-- What the last match takes is passed over. -/
theorem partsFrom_covered (covered : Nat) (text : List Char) :
    p.partsFrom false covered text = p.partsFrom false 0 (text.drop covered) := by
  induction covered generalizing text with
  | zero => rfl
  | succ covered ih =>
      cases text with
      | nil => rfl
      | cons c cs =>
          rw [partsFrom, List.drop_succ_cons]
          exact ih cs

theorem partsFrom_of_none {atStart : Bool} {c : Char} {cs : List Char}
    (h : p.match? atStart (c :: cs) = none) :
    p.partsFrom atStart 0 (c :: cs) = p.partsFrom false 0 cs := by
  rw [partsFrom, h]

/-- Behind a match the search goes on with what it leaves. -/
theorem partsFrom_of_some {atStart : Bool} {c : Char} {cs rest : List Char} {m : Match}
    (h : p.match? atStart (c :: cs) = some m) (hpos : 0 < m.length)
    (hrest : (c :: cs).drop m.length = rest) :
    p.partsFrom atStart 0 (c :: cs) = m.part :: p.partsFrom false 0 rest := by
  obtain ⟨n, hn⟩ : ∃ n, m.length = n + 1 := ⟨m.length - 1, by omega⟩
  rw [hn, List.drop_succ_cons] at hrest
  rw [partsFrom, h]
  change m.part :: p.partsFrom false (m.length - 1) cs = _
  rw [hn, Nat.add_sub_cancel, partsFrom_covered, hrest]

end Pattern

end Slipbox.Text
