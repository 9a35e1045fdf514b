import Slipbox.Proofs.Query.Lexing
import Slipbox.Proofs.Text.Lowercase

/-! How tokens are written, and what the scanner takes of a text: the longest beginning that is a
written token. Where it takes nothing no beginning is one. -/

namespace Slipbox.Query

open Lexeme

/-- The ways in which a token is written. -/
inductive Spelling : Kind → Word → Prop
  | keyword {k : Keyword} {w : Word} (h : w.map Char.toUpper = k.letters) : Spelling (.keyword k) w
  | boolean {b : Bool} {w : Word} (h : w.map Char.toLower = (toString b).toList) :
      Spelling (.boolean b) w
  | identifier {name : String} (h : IsName name) : Spelling (.identifier name) name.toList
  | string {text : String} {body : List Char} (h : Quoted text.toList body) :
      Spelling (.string text) ('"' :: (body ++ ['"']))
  | number {n : Decimal.Numeral} (h : n.Plain) :
      Spelling (.number n.value n.fraction.isEmpty) n.chars
  | operator (op : CompareOp) : Spelling (.operator op) op.symbol.toList
  | lparen : Spelling .lparen ['(']
  | rparen : Spelling .rparen [')']
  | comma : Spelling .comma [',']

section Words

/-! Keywords, truth values and names are words; which of them a word is shows in its letters. -/

/-- A letter or an underscore, and then letters, digits, underscores and points. -/
structure IsWord (w : Word) : Prop where
  start : w.head?.any isWordStart = true
  chars : w.all isWordChar = true

theorem isWordStart_toLower (c : Char) : isWordStart c.toLower = isWordStart c :=
  Text.apply_toLower (f := isWordStart) (by decide +kernel) c

theorem toUpper_toLower (c : Char) : c.toLower.toUpper = c.toUpper :=
  Text.apply_toLower (f := Char.toUpper) (by decide +kernel) c

theorem isWordStart_of_toUpper {c : Char} (h : isWordStart c.toUpper = true) :
    isWordStart c = true := by
  by_cases hsmall : 'a'.val ≤ c.val ∧ c.val ≤ 'z'.val
  · rw [isWordStart_iff]
    simp only [UInt32.le_iff_toNat_le, Char.toNat_val, Char.reduceToNat] at hsmall
    omega
  · have hkept : c.toUpper = c := dif_neg hsmall
    rwa [hkept] at h

/-- A text of letters is a word, and so is each of its spellings. -/
theorem isWord_of_map {f : Char → Char} (hf : ∀ c, isWordStart (f c) = true → isWordStart c = true)
    {w letters : Word} (hne : letters ≠ []) (hletters : letters.all isWordStart = true)
    (h : w.map f = letters) : IsWord w := by
  subst h
  simp only [List.all_eq_true, List.forall_mem_map] at hletters
  have hw : ∀ c ∈ w, isWordStart c = true := fun c hc => hf c (hletters c hc)
  refine ⟨?_, List.all_eq_true.mpr fun c hc => (isWordChar_iff c).mpr (.inl (hw c hc))⟩
  cases w with
  | nil => exact absurd rfl hne
  | cons c w => exact hw c List.mem_cons_self

theorem isWord_keyword {k : Keyword} {w : Word} (h : w.map Char.toUpper = k.letters) : IsWord w :=
  isWord_of_map (fun _ => isWordStart_of_toUpper) (by cases k <;> decide) (by cases k <;> decide) h

theorem isWord_boolean {b : Bool} {w : Word} (h : w.map Char.toLower = (toString b).toList) :
    IsWord w :=
  isWord_of_map (fun c hc => isWordStart_toLower c ▸ hc) (by cases b <;> decide)
    (by cases b <;> decide) h

theorem wordKind_keyword {k : Keyword} {w : Word} (h : w.map Char.toUpper = k.letters) :
    wordKind w = .keyword k := by
  have hfound : Keyword.ofWord? w = some k := by
    rw [Keyword.ofWord?, h]
    cases k <;> rfl
  rw [wordKind, hfound]

theorem wordKind_boolean {b : Bool} {w : Word} (h : w.map Char.toLower = (toString b).toList) :
    wordKind w = .boolean b := by
  have hupper : w.map Char.toUpper = (toString b).toList.map Char.toUpper := by
    rw [← h, List.map_map]
    exact List.map_congr_left fun c _ => (toUpper_toLower c).symm
  have hnone : Keyword.ofWord? w = none := by
    rw [Keyword.ofWord?, hupper]
    cases b <;> decide
  rw [wordKind, hnone]
  dsimp only
  rw [h]
  cases b <;> rfl

/-- A word is written as what the scanner takes it for. -/
theorem spelling_wordKind {w : Word} (h : IsWord w) : Spelling (wordKind w) w := by
  rw [wordKind]
  cases hkeyword : Keyword.ofWord? w with
  | some k =>
      have hk := List.find?_some hkeyword
      rw [beq_iff_eq] at hk
      exact .keyword hk.symm
  | none =>
      dsimp only
      by_cases htrue : w.map Char.toLower = "true".toList
      · rw [if_pos htrue]
        exact .boolean htrue
      by_cases hfalse : w.map Char.toLower = "false".toList
      · rw [if_neg htrue, if_pos hfalse]
        exact .boolean hfalse
      have hname : IsName (String.ofList w) := by
        refine ⟨?_, ?_, fun k hk => ?_, fun b hb => ?_⟩
        · simpa using h.start
        · simpa using h.chars
        · rw [String.toList_ofList] at hk
          have hnot := List.find?_eq_none.mp hkeyword k k.mem_all
          exact hnot (beq_iff_eq.mpr hk.symm)
        · rw [String.toList_ofList] at hb
          cases b with
          | true => exact htrue hb
          | false => exact hfalse hb
      rw [if_neg htrue, if_neg hfalse]
      simpa using Spelling.identifier hname

/-- Of a text that begins with a word a word is taken, and this one or a longer one. -/
theorem next_word {w : Word} (h : IsWord w) {c : Char} {cs : List Char} (hw : w <+: c :: cs) :
    ∃ l, next c cs = .ok l ∧ w.length ≤ l.taken.length ∧ (l.taken = w → l.kind = wordKind w) := by
  obtain ⟨rest, hrest⟩ := hw
  have hchars := List.all_eq_true.mp h.chars
  have hstart : isWordStart c = true := by
    cases w with
    | nil => cases h.start
    | cons d w =>
        cases hrest
        exact h.start
  have htaken : (word (c :: cs)).taken = w ++ rest.takeWhile isWordChar := by
    rw [word, ← hrest]
    exact List.takeWhile_append_of_pos hchars
  refine ⟨_, next_of_isWordStart hstart cs, ?_, fun hsame => ?_⟩
  · rw [htaken, List.length_append]
    exact Nat.le_add_right _ _
  · rw [← hsame]
    rfl

end Words

section Strings

theorem quoted_of_quoted? {cs text taken rest : List Char}
    (h : quoted? cs = some (text, taken, rest)) :
    ∃ body, Quoted text body ∧ taken = body ++ ['"'] ∧ taken ++ rest = cs := by
  induction cs using quoted?.induct generalizing text taken rest with
  | case1 => cases h
  | case2 cs =>
      cases h
      exact ⟨[], .nil, rfl, rfl⟩
  | case3 => cases h
  | case4 c cs ih =>
      obtain ⟨⟨text, taken, rest⟩, hread, hparts⟩ := Option.map_eq_some_iff.mp h
      cases hparts
      obtain ⟨body, hbody, rfl, rfl⟩ := ih hread
      exact ⟨'\\' :: c :: body, .escaped c hbody, rfl, rfl⟩
  | case5 c cs hclose halone hescape ih =>
      have hslash : c ≠ '\\' := by
        rintro rfl
        cases cs with
        | nil => exact halone rfl rfl
        | cons d cs => exact hescape d cs rfl rfl
      rw [quoted?] at h
      · obtain ⟨⟨text, taken, rest⟩, hread, hparts⟩ := Option.map_eq_some_iff.mp h
        cases hparts
        obtain ⟨body, hbody, rfl, rfl⟩ := ih hread
        exact ⟨c :: body, .plain hclose hslash hbody, rfl, rfl⟩
      · exact hclose
      · exact fun h _ => hslash h
      · exact fun _ _ h => absurd h hslash

end Strings

section Numbers

theorem fraction?_eq_some {cs ds rest : List Char} (h : fraction? cs = some (ds, rest)) :
    ds ≠ [] ∧ (∀ d ∈ ds, d.isDigit = true) ∧ cs = '.' :: (ds ++ rest) := by
  unfold fraction? at h
  split at h
  · next cs =>
    split at h
    · cases h
    · next hne =>
      cases h
      exact ⟨hne, fun _ => List.mem_takeWhile_imp,
        by rw [List.takeWhile_append_dropWhile]⟩
  · cases h

theorem fraction?_append {ds : List Char} (hne : ds ≠ []) (hds : ∀ d ∈ ds, d.isDigit = true)
    (rest : List Char) : fraction? ('.' :: (ds ++ rest)) =
      some (ds ++ rest.takeWhile Char.isDigit, rest.dropWhile Char.isDigit) := by
  rw [fraction?, List.takeWhile_append_of_pos hds, List.dropWhile_append_of_pos hds]
  split
  · next hnil => exact absurd (List.append_eq_nil_iff.mp hnil).1 hne
  · rfl

/-- What is taken of a text that begins with a digit is a numeral. -/
theorem exists_numeral {c : Char} (hc : c.isDigit = true) (cs : List Char) :
    ∃ n : Decimal.Numeral, n.Plain ∧
      (number (c :: cs)).kind = .number n.value n.fraction.isEmpty ∧
      (number (c :: cs)).taken = n.chars ∧ n.chars ++ (number (c :: cs)).rest = c :: cs := by
  have hne : (c :: cs).takeWhile Char.isDigit ≠ [] := by
    rw [List.takeWhile_cons_of_pos hc]
    exact List.cons_ne_nil _ _
  have hdigits : ∀ d ∈ (c :: cs).takeWhile Char.isDigit, d.isDigit = true :=
    fun _ => List.mem_takeWhile_imp
  have hwhole := List.takeWhile_append_dropWhile (p := Char.isDigit) (l := c :: cs)
  rw [number]
  generalize (c :: cs).takeWhile Char.isDigit = whole at hne hdigits hwhole ⊢
  generalize (c :: cs).dropWhile Char.isDigit = rest at hwhole ⊢
  cases hfraction : fraction? rest with
  | none => exact ⟨⟨whole, [], 0⟩, ⟨hne, by simpa using hdigits, rfl⟩, rfl, rfl, hwhole⟩
  | some parts =>
      obtain ⟨ds, rest'⟩ := parts
      obtain ⟨hsome, hds, rfl⟩ := fraction?_eq_some hfraction
      refine ⟨⟨whole, ds, 0⟩, ⟨hne, List.forall_mem_append.mpr ⟨hdigits, hds⟩, rfl⟩, ?_, ?_, ?_⟩
      · simpa using hsome
      · cases ds with
        | nil => exact absurd rfl hsome
        | cons d ds => rfl
      · cases ds with
        | nil => exact absurd rfl hsome
        | cons d ds => simpa [Decimal.Numeral.chars] using hwhole

/-- Of a text that begins with a numeral this one is taken or a longer one. -/
theorem length_chars_le {n : Decimal.Numeral} (hn : n.Plain) (rest : List Char) :
    n.chars.length ≤ (number (n.chars ++ rest)).taken.length := by
  obtain ⟨whole, fraction, exponent⟩ := n
  obtain ⟨-, hdigits, -⟩ := hn
  rw [List.forall_mem_append] at hdigits
  obtain ⟨hwhole, hfraction⟩ := hdigits
  cases fraction with
  | nil =>
      have htake : (whole ++ rest).takeWhile Char.isDigit =
          whole ++ rest.takeWhile Char.isDigit := List.takeWhile_append_of_pos hwhole
      change whole.length ≤ (number (whole ++ rest)).taken.length
      rw [number, htake]
      split <;> simp only [List.length_append] <;> omega
  | cons d ds =>
      have hpoint : ∀ c ∈ ('.' :: (d :: ds ++ rest)).head?, c.isDigit = false := by
        rintro c ⟨⟩
        rfl
      obtain ⟨htake, hdrop⟩ := takeWhile_run hwhole hpoint
      have hsome := fraction?_append (List.cons_ne_nil d ds) hfraction rest
      change (whole ++ '.' :: d :: ds).length ≤
        (number ((whole ++ '.' :: d :: ds) ++ rest)).taken.length
      rw [List.append_assoc, List.cons_append, number, htake, hdrop]
      dsimp only
      rw [hsome]
      simp

theorem next_number {n : Decimal.Numeral} (hn : n.Plain) {c : Char} {cs : List Char}
    (hw : n.chars <+: c :: cs) :
    ∃ l, next c cs = .ok l ∧ n.chars.length ≤ l.taken.length ∧
      (l.taken = n.chars → l.kind = .number n.value n.fraction.isEmpty) := by
  obtain ⟨rest, hrest⟩ := hw
  obtain ⟨d, ds, hchars, hd⟩ := hn.chars_eq_cons
  have hc : c.isDigit = true := by
    rw [hchars] at hrest
    cases hrest
    exact hd
  refine ⟨_, next_of_isDigit hc cs, ?_, fun hsame => ?_⟩
  · rw [← hrest]
    exact length_chars_le hn rest
  · obtain ⟨n', hn', hkind, htaken, -⟩ := exists_numeral hc cs
    rw [hkind, hn'.eq_of_chars hn (htaken.symm.trans hsame)]

end Numbers

section Operators

theorem operator?_spelling {c : Char} {cs taken rest : List Char} {op : CompareOp}
    (h : operator? c cs = some (op, taken, rest)) :
    taken = op.symbol.toList ∧ taken ++ rest = c :: cs := by
  unfold operator? at h
  split at h <;> cases h <;> exact ⟨rfl, rfl⟩

/-- A longer operator than this one begins with it and has one character more. -/
theorem next_operator (op : CompareOp) {c : Char} {cs : List Char}
    (hw : op.symbol.toList <+: c :: cs) :
    ∃ l, next c cs = .ok l ∧ op.symbol.toList.length ≤ l.taken.length ∧
      (l.taken = op.symbol.toList → l.kind = .operator op) := by
  have hstrict (s w : CompareOp) {first : Char} (hfirst : s.symbol.toList = [first])
      (hstop : ∀ rest : List Char, (∀ d ∈ rest.head?, d ≠ '=') →
        next first rest = .ok ⟨.operator s, [first], rest⟩)
      (hmore : ∀ rest, next first ('=' :: rest) = .ok ⟨.operator w, [first, '='], rest⟩)
      (rest : List Char) : ∃ l, next first rest = .ok l ∧
        s.symbol.toList.length ≤ l.taken.length ∧
        (l.taken = s.symbol.toList → l.kind = .operator s) := by
    rw [hfirst]
    by_cases hequals : rest.head? = some '='
    · obtain ⟨rest, rfl⟩ := List.head?_eq_some_iff.mp hequals
      exact ⟨_, hmore rest, by simp, by simp⟩
    · refine ⟨_, hstop rest fun d hd => ?_, Nat.le_refl _, fun _ => rfl⟩
      rintro rfl
      exact hequals hd
  obtain ⟨rest, hrest⟩ := hw
  cases op <;> cases hrest
  case eq => exact ⟨_, rfl, Nat.le_refl _, fun _ => rfl⟩
  case ne => exact ⟨_, rfl, Nat.le_refl _, fun _ => rfl⟩
  case ge => exact ⟨_, rfl, Nat.le_refl _, fun _ => rfl⟩
  case le => exact ⟨_, rfl, Nat.le_refl _, fun _ => rfl⟩
  case gt =>
    exact hstrict .gt .ge rfl
      (fun _ h => next_of_strict (.inl rfl) (operator?_strict h).1) (fun _ => rfl) rest
  case lt =>
    exact hstrict .lt .le rfl
      (fun _ h => next_of_strict (.inr rfl) (operator?_strict h).2) (fun _ => rfl) rest

end Operators

/-- What is taken makes up the text together with the rest, and is a written token. -/
theorem spelling_of_next {c : Char} {cs : List Char} {l : Lexeme} (h : next c cs = .ok l) :
    l.taken ++ l.rest = c :: cs ∧ Spelling l.kind l.taken := by
  unfold next at h
  split at h
  · next hc =>
    cases h
    exact ⟨rfl, hc ▸ .lparen⟩
  split at h
  · next hc =>
    cases h
    exact ⟨rfl, hc ▸ .rparen⟩
  split at h
  · next hc =>
    cases h
    exact ⟨rfl, hc ▸ .comma⟩
  split at h
  · next hc =>
    subst hc
    split at h
    · next text taken rest hread =>
      cases h
      obtain ⟨body, hbody, rfl, htext⟩ := quoted_of_quoted? hread
      exact ⟨congrArg _ htext, .string (by rwa [String.toList_ofList])⟩
    · cases h
  split at h
  · next hdigit =>
    cases h
    obtain ⟨n, hn, hkind, htaken, htext⟩ := exists_numeral hdigit cs
    rw [hkind, htaken]
    exact ⟨htext, .number hn⟩
  split at h
  · next hstart =>
    cases h
    have hc : isWordChar c = true := (isWordChar_iff c).mpr (.inl hstart)
    have hword : IsWord (word (c :: cs)).taken := by
      refine ⟨?_, List.all_eq_true.mpr fun _ => List.mem_takeWhile_imp⟩
      rw [word, List.takeWhile_cons_of_pos hc]
      exact hstart
    exact ⟨List.takeWhile_append_dropWhile, spelling_wordKind hword⟩
  · split at h
    · next hread =>
      cases h
      obtain ⟨rfl, htext⟩ := operator?_spelling hread
      exact ⟨htext, .operator _⟩
    · cases h

/-- A written token is scanned on its own in front of all that ends it. -/
theorem Spelling.spells {k : Kind} {w : Word} (h : Spelling k w) : Spells w k := by
  have hword {w : Word} (hw : IsWord w) : Spells w (wordKind w) := spells_word hw.start hw.chars
  cases h with
  | keyword h => exact wordKind_keyword h ▸ hword (isWord_keyword h)
  | boolean h => exact wordKind_boolean h ▸ hword (isWord_boolean h)
  | identifier h => exact h.spells
  | string h => exact spells_quoted h
  | number h => exact spells_number h
  | operator op => exact spells_operator op
  | lparen => exact spells_lparen
  | rparen => exact spells_rparen
  | comma => exact spells_comma

/-- A text that begins with a written token is not refused, and no less than this token is taken. -/
theorem Spelling.next {k : Kind} {w : Word} (h : Spelling k w) {c : Char} {cs : List Char}
    (hw : w <+: c :: cs) :
    ∃ l, next c cs = .ok l ∧ w.length ≤ l.taken.length ∧ (l.taken = w → l.kind = k) := by
  cases h with
  | keyword h => exact wordKind_keyword h ▸ next_word (isWord_keyword h) hw
  | boolean h => exact wordKind_boolean h ▸ next_word (isWord_boolean h) hw
  | identifier h => exact h.wordKind ▸ next_word ⟨h.start, h.chars⟩ hw
  | @string text body h =>
      obtain ⟨rest, hrest⟩ := hw
      rw [List.cons_append, List.append_assoc, List.singleton_append] at hrest
      cases hrest
      exact ⟨_, next_of_quoted h rest, Nat.le_refl _, fun _ => by rw [String.ofList_toList]⟩
  | number h => exact next_number h hw
  | operator op => exact next_operator op hw
  | lparen | rparen | comma =>
      obtain ⟨rest, hrest⟩ := hw
      cases hrest
      exact ⟨_, rfl, Nat.le_refl _, fun _ => rfl⟩

/-- A written token stands at the head of the text, and no longer beginning is one. -/
structure Longest (l : Lexeme) (text : List Char) : Prop where
  parts : l.taken ++ l.rest = text
  spelled : Spelling l.kind l.taken
  longest : ∀ k w, Spelling k w → w <+: text → w.length ≤ l.taken.length

/-- The scanner takes the longest written token. -/
theorem next_eq_ok_iff {c : Char} {cs : List Char} {l : Lexeme} :
    next c cs = .ok l ↔ Longest l (c :: cs) := by
  constructor
  · intro h
    obtain ⟨hparts, hspelled⟩ := spelling_of_next h
    refine ⟨hparts, hspelled, fun k w hw hprefix => ?_⟩
    obtain ⟨l', hl', hlength, -⟩ := hw.next hprefix
    rw [h] at hl'
    cases hl'
    exact hlength
  · intro h
    have hprefix : l.taken <+: c :: cs := ⟨_, h.parts⟩
    obtain ⟨l', hl', hlength, hkind⟩ := h.spelled.next hprefix
    obtain ⟨hparts', hspelled'⟩ := spelling_of_next hl'
    have hprefix' : l'.taken <+: c :: cs := ⟨_, hparts'⟩
    have hsame : l'.taken = l.taken :=
      (List.prefix_of_prefix_length_le hprefix' hprefix
        (h.longest _ _ hspelled' hprefix')).eq_of_length_le hlength
    have hrest : l'.rest = l.rest := by
      rw [hsame, ← h.parts] at hparts'
      exact List.append_cancel_left hparts'
    obtain ⟨kind, taken, rest⟩ := l
    obtain ⟨kind', taken', rest'⟩ := l'
    cases hsame
    cases hrest
    cases hkind rfl
    exact hl'

/-- What stands behind a token may be cut off anywhere. -/
theorem next_cut {c : Char} {cs : List Char} {l : Lexeme} (h : next c cs = .ok l)
    {front more : List Char} (hrest : l.rest = front ++ more) :
    ∃ ds, l.taken ++ front = c :: ds ∧ next c ds = .ok ⟨l.kind, l.taken, front⟩ := by
  have hlongest := next_eq_ok_iff.mp h
  have hparts : c :: cs = (l.taken ++ front) ++ more := by
    rw [List.append_assoc, ← hrest, hlongest.parts]
  obtain ⟨ds, hds⟩ : ∃ ds, l.taken ++ front = c :: ds := by
    obtain ⟨d, ds, htaken, -⟩ := hlongest.spelled.spells
    rw [htaken] at hparts ⊢
    cases hparts
    exact ⟨_, rfl⟩
  refine ⟨ds, hds, next_eq_ok_iff.mpr ⟨hds, hlongest.spelled, fun k w hw hprefix => ?_⟩⟩
  apply hlongest.longest k w hw
  rw [hparts, hds]
  exact hprefix.trans (List.prefix_append _ _)

/-- Why no token stands at the head of a text: it is a quote that nothing closes, an exclamation
mark without an equals sign, or a character with which no token begins. -/
inductive Refused : Char → List Char → Fault → Prop
  | openQuote {cs : List Char}
      (h : ∀ text body rest, Quoted text body → cs ≠ body ++ '"' :: rest) :
      Refused '"' cs .unterminatedString
  | loneMark {cs : List Char} (h : cs.head? ≠ some '=') : Refused '!' cs (.unexpectedChar '!')
  | noStart {c : Char} {cs : List Char} (h : ∀ k w, Spelling k w → w.head? ≠ some c) :
      Refused c cs (.unexpectedChar c)

/-- A quote and an exclamation mark need more behind them; what else begins a token is one alone. -/
theorem Spelling.first {k : Kind} {c : Char} {cs : List Char} (h : Spelling k (c :: cs)) :
    c = '"' ∨ c = '!' ∨ ∃ k', Spelling k' [c] := by
  have hword (hw : IsWord (c :: cs)) : ∃ k', Spelling k' [c] :=
    ⟨_, spelling_wordKind ⟨hw.start, by simpa using (List.all_eq_true.mp hw.chars) c (by simp)⟩⟩
  generalize hw : c :: cs = w at h
  cases h with
  | keyword h => exact .inr (.inr (hword (hw ▸ isWord_keyword h)))
  | boolean h => exact .inr (.inr (hword (hw ▸ isWord_boolean h)))
  | identifier h => exact .inr (.inr (hword (hw ▸ ⟨h.start, h.chars⟩)))
  | string h =>
      cases hw
      exact .inl rfl
  | number h =>
      obtain ⟨d, ds, hchars, hd⟩ := h.chars_eq_cons
      cases hw.trans hchars
      have hone : Decimal.Numeral.Plain ⟨[c], [], 0⟩ := ⟨by simp, by simpa using hd, rfl⟩
      exact .inr (.inr ⟨_, .number hone⟩)
  | operator op =>
      cases op with
      | ne =>
          cases hw
          exact .inr (.inl rfl)
      | eq =>
          cases hw
          exact .inr (.inr ⟨_, .operator .eq⟩)
      | gt | ge =>
          cases hw
          exact .inr (.inr ⟨_, .operator .gt⟩)
      | lt | le =>
          cases hw
          exact .inr (.inr ⟨_, .operator .lt⟩)
  | lparen =>
      cases hw
      exact .inr (.inr ⟨_, .lparen⟩)
  | rparen =>
      cases hw
      exact .inr (.inr ⟨_, .rparen⟩)
  | comma =>
      cases hw
      exact .inr (.inr ⟨_, .comma⟩)

theorem fault_of_next {c : Char} {cs : List Char} {fault : Fault} (h : next c cs = .error fault) :
    fault = if c = '"' then .unterminatedString else .unexpectedChar c := by
  unfold next at h
  by_cases hquote : c = '"'
  · repeat' split at h
    all_goals cases h
    rw [if_pos hquote]
  · repeat' split at h
    all_goals cases h
    rw [if_neg hquote]

/-- The scanner refuses a text for a reason. -/
theorem refused_of_next {c : Char} {cs : List Char} {fault : Fault}
    (h : next c cs = .error fault) : Refused c cs fault := by
  have hnone : ∀ k w, Spelling k w → ¬ w <+: c :: cs := by
    intro k w hw hprefix
    obtain ⟨l, hl, -⟩ := hw.next hprefix
    cases h.symm.trans hl
  rw [fault_of_next h]
  by_cases hquote : c = '"'
  · subst hquote
    refine .openQuote fun text body rest hbody hcs => ?_
    have hstring : Spelling (.string (String.ofList text)) ('"' :: (body ++ ['"'])) :=
      .string (by rwa [String.toList_ofList])
    exact hnone _ _ hstring ⟨rest, by simp [hcs]⟩
  rw [if_neg hquote]
  by_cases hmark : c = '!'
  · subst hmark
    refine .loneMark fun hequals => ?_
    obtain ⟨rest, rfl⟩ := List.head?_eq_some_iff.mp hequals
    exact hnone _ _ (.operator .ne) ⟨rest, rfl⟩
  · refine .noStart fun k w hw hhead => ?_
    obtain ⟨rest, rfl⟩ := List.head?_eq_some_iff.mp hhead
    rcases hw.first with hc | hc | ⟨k', hc⟩
    · exact hquote hc
    · exact hmark hc
    · exact hnone _ _ hc ⟨cs, rfl⟩

end Slipbox.Query
