import Slipbox.Query.Error
import Slipbox.Decimal.Numeral

/-! Cutting a query text into tokens. A scan takes the longest token at the head of the text, so the
taken characters and the rest make up the text again; white space between tokens is skipped. -/

namespace Slipbox.Query

/-- A token at the head of a text: the characters it takes and those after it. -/
structure Lexeme where
  kind : Kind
  taken : List Char
  rest : List Char

namespace Lexeme

def isWordStart (c : Char) : Bool :=
  c.isAlpha || c == '_'

def isWordChar (c : Char) : Bool :=
  c.isAlphanum || c == '_' || c == '.'

/-- A word is a keyword or a truth value only as a whole and in any letter case. -/
def wordKind (w : List Char) : Kind :=
  match Keyword.ofWord? w with
  | some k => .keyword k
  | none =>
    let small := w.map Char.toLower
    if small = "true".toList then .boolean true
    else if small = "false".toList then .boolean false
    else .identifier (String.ofList w)

def word (cs : List Char) : Lexeme :=
  let w := cs.takeWhile isWordChar
  ⟨wordKind w, w, cs.dropWhile isWordChar⟩

/-- The digits after a point that is followed by one. -/
def fraction? : List Char → Option (List Char × List Char)
  | '.' :: cs =>
    match cs.takeWhile Char.isDigit with
    | [] => none
    | ds => some (ds, cs.dropWhile Char.isDigit)
  | _ => none

def number (cs : List Char) : Lexeme :=
  let whole := cs.takeWhile Char.isDigit
  let rest := cs.dropWhile Char.isDigit
  match fraction? rest with
  | none => ⟨.number (Decimal.Numeral.value ⟨whole, [], 0⟩) true, whole, rest⟩
  | some (ds, rest) =>
    ⟨.number (Decimal.Numeral.value ⟨whole, ds, 0⟩) false, whole ++ '.' :: ds, rest⟩

/-- What an escaped character stands for. -/
def unescape : Char → Char
  | 'n' => '\n'
  | 't' => '\t'
  | c => c

/-- The content of a string after its opening quote, the characters it takes with the closing quote,
and the rest; `none` when no quote closes it. -/
def quoted? : List Char → Option (List Char × List Char × List Char)
  | [] => none
  | '"' :: cs => some ([], ['"'], cs)
  | ['\\'] => none
  | '\\' :: c :: cs =>
    (quoted? cs).map fun (text, taken, rest) => (unescape c :: text, '\\' :: c :: taken, rest)
  | c :: cs => (quoted? cs).map fun (text, taken, rest) => (c :: text, c :: taken, rest)

/-- Of two operators that fit, the longer one. -/
def operator? (c : Char) (cs : List Char) : Option (CompareOp × List Char × List Char) :=
  match c, cs with
  | '!', '=' :: r => some (.ne, [c, '='], r)
  | '>', '=' :: r => some (.ge, [c, '='], r)
  | '<', '=' :: r => some (.le, [c, '='], r)
  | '=', r => some (.eq, [c], r)
  | '>', r => some (.gt, [c], r)
  | '<', r => some (.lt, [c], r)
  | _, _ => none

/-- The token at the head of `c :: cs`. -/
def next (c : Char) (cs : List Char) : Except Fault Lexeme :=
  if c = '(' then .ok ⟨.lparen, [c], cs⟩
  else if c = ')' then .ok ⟨.rparen, [c], cs⟩
  else if c = ',' then .ok ⟨.comma, [c], cs⟩
  else if c = '"' then
    match quoted? cs with
    | some (text, taken, rest) => .ok ⟨.string (String.ofList text), c :: taken, rest⟩
    | none => .error .unterminatedString
  else if c.isDigit then .ok (number (c :: cs))
  else if isWordStart c then .ok (word (c :: cs))
  else
    match operator? c cs with
    | some (op, taken, rest) => .ok ⟨.operator op, taken, rest⟩
    | none => .error (.unexpectedChar c)

theorem quoted?_length {cs text taken rest : List Char}
    (h : quoted? cs = some (text, taken, rest)) :
    rest.length < cs.length := by
  fun_induction quoted? cs generalizing text taken rest with
  | case1 => simp at h
  | case2 cs => simp_all
  | case3 => simp at h
  | case4 c cs ih =>
    obtain ⟨⟨t, u, r⟩, hq, he⟩ := Option.map_eq_some_iff.1 h
    simp only [Prod.mk.injEq] at he
    obtain ⟨-, -, rfl⟩ := he
    exact Nat.lt_trans (ih hq) (by simp only [List.length_cons]; omega)
  | case5 c cs _ _ _ ih =>
    obtain ⟨⟨t, u, r⟩, hq, he⟩ := Option.map_eq_some_iff.1 h
    simp only [Prod.mk.injEq] at he
    obtain ⟨-, -, rfl⟩ := he
    exact Nat.lt_trans (ih hq) (by simp only [List.length_cons]; omega)

private theorem length_dropWhile_lt {p : Char → Bool} {c : Char} (h : p c = true) (cs : List Char) :
    ((c :: cs).dropWhile p).length < (c :: cs).length := by
  rw [List.dropWhile_cons_of_pos h]
  exact Nat.lt_succ_of_le (List.dropWhile_sublist p).length_le

private theorem isWordChar_of_start {c : Char} (h : isWordStart c = true) :
    isWordChar c = true := by
  simp only [isWordStart, isWordChar, Char.isAlphanum, Bool.or_eq_true] at h ⊢
  rcases h with h | h <;> simp [h]

private theorem fraction?_length {cs ds rest : List Char} (h : fraction? cs = some (ds, rest)) :
    rest.length ≤ cs.length := by
  unfold fraction? at h
  split at h
  · split at h
    · simp at h
    · simp only [Option.some.injEq, Prod.mk.injEq] at h
      rw [← h.2]
      exact Nat.le_succ_of_le (List.dropWhile_sublist _).length_le
  · simp at h

theorem number_length {c : Char} (h : c.isDigit = true) (cs : List Char) :
    (number (c :: cs)).rest.length < (c :: cs).length := by
  have hd := length_dropWhile_lt h cs
  simp only [number]
  split
  · exact hd
  · next ds rest hf => exact Nat.lt_of_le_of_lt (fraction?_length hf) hd

theorem operator?_length {c : Char} {cs taken rest : List Char} {op : CompareOp}
    (h : operator? c cs = some (op, taken, rest)) : rest.length ≤ cs.length := by
  unfold operator? at h
  split at h <;> simp only [Option.some.injEq, Prod.mk.injEq, reduceCtorEq] at h <;>
    simp [← h.2.2]

/-- Every token takes at least one character. -/
theorem next_length {c : Char} {cs : List Char} {l : Lexeme} (h : next c cs = .ok l) :
    l.rest.length < (c :: cs).length := by
  unfold next at h
  repeat' split at h
  all_goals simp only [Except.ok.injEq, reduceCtorEq] at h
  all_goals subst h
  · simp
  · simp
  · simp
  · next hq => exact Nat.lt_succ_of_lt (quoted?_length hq)
  · next hd => exact number_length hd cs
  · next hw => exact length_dropWhile_lt (isWordChar_of_start hw) cs
  · next ho => exact Nat.lt_succ_of_le (operator?_length ho)

end Lexeme

/-- The tokens of the text `cs`, which starts at byte `pos`. -/
def tokensFrom (pos : Nat) (cs : List Char) : Except Located (List Token) :=
  match cs with
  | [] => .ok [⟨.eof, pos⟩]
  | c :: cs =>
    if Text.isBlank c then tokensFrom (pos + c.utf8Size) cs
    else
      match h : Lexeme.next c cs with
      | .error fault => .error ⟨fault, pos⟩
      | .ok l =>
        have : l.rest.length < (c :: cs).length := Lexeme.next_length h
        (tokensFrom (pos + Text.byteLength l.taken) l.rest).map (⟨l.kind, pos⟩ :: ·)
termination_by cs.length
decreasing_by
  · exact Nat.lt_succ_self cs.length
  · assumption

/-- The tokens of a text, the last of which marks its end. -/
def tokenize (text : String) : Except Located (List Token) :=
  tokensFrom 0 text.toList

end Slipbox.Query
