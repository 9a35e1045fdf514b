import Slipbox.Text.Blank

/-! Where the properties at the top of a document end and its body begins. The properties stand
between a first line of three dashes and a later line of three dashes; without both there are none.
-/

namespace Slipbox.Document

/-- A line with its end, and what follows it. -/
structure LineCut where
  line : List Char
  rest : List Char

/-- The first line of a text with its line feed, if it has one. -/
def firstLine : List Char → LineCut
  | [] => ⟨[], []⟩
  | c :: cs =>
    if c = '\n' then ⟨[c], cs⟩
    else ⟨c :: (firstLine cs).line, (firstLine cs).rest⟩

theorem firstLine_append (cs : List Char) : (firstLine cs).line ++ (firstLine cs).rest = cs := by
  induction cs with
  | nil => rfl
  | cons c cs ih =>
    by_cases h : c = '\n'
    · simp [firstLine, h]
    · simp [firstLine, h, ih]

theorem firstLine_rest_length (c : Char) (cs : List Char) :
    (firstLine (c :: cs)).rest.length < (c :: cs).length := by
  induction cs generalizing c with
  | nil => by_cases h : c = '\n' <;> simp [firstLine, h]
  | cons d cs ih =>
    by_cases h : c = '\n'
    · simp [firstLine, h]
    · have := ih d
      simp only [firstLine, h, if_false, List.length_cons] at this ⊢
      omega

/-- Whether a line is three dashes, with nothing but carriage returns before its end. -/
def isFence (line : List Char) : Bool :=
  match Text.after? ['-', '-', '-'] line with
  | some rest =>
    let ends := rest.dropWhile (· == '\r')
    ends.isEmpty || ends == ['\n']
  | none => false

/-- The lines before the first fence, and what follows the fence. -/
def beforeFence? (cs : List Char) : Option (List Char × List Char) :=
  match cs with
  | [] => none
  | c :: cs =>
    let cut := firstLine (c :: cs)
    if isFence cut.line then some ([], cut.rest)
    else (beforeFence? cut.rest).map fun (block, body) => (cut.line ++ block, body)
termination_by cs.length
decreasing_by exact firstLine_rest_length c cs

/-- The text without a byte order mark at its start. -/
def withoutMark : List Char → List Char
  | '\ufeff' :: cs => cs
  | cs => cs

/-- The properties, if there are any, and the body. -/
def split (raw : List Char) : Option (List Char) × List Char :=
  let text := withoutMark raw
  match (Text.after? "---\n".toList text).or (Text.after? "---\r\n".toList text) with
  | none => (none, text)
  | some rest =>
    match beforeFence? rest with
    | some (block, body) => (some block, body)
    | none => (none, text)

end Slipbox.Document
