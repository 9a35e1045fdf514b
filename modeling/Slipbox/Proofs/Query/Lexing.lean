import Mathlib
import Slipbox.Proofs.Decimal.Plain
import Slipbox.Proofs.Query.Printing
import Slipbox.Proofs.Text.Trimming

/-! The tokens of a printed query. A word is scanned on its own in front of all that it may stand in
front of, so the tokens of a text that is laid out from words are the tokens of the words. -/

namespace Slipbox.Query

open Lexeme

/-- The word is scanned as a token of this kind, in front of all that it may stand in front of. -/
def Spells (w : Word) (k : Kind) : Prop :=
  ∃ c cs, w = c :: cs ∧ Text.isBlank c = false ∧
    ∀ rest, Parted w rest → next c (cs ++ rest) = .ok ⟨k, w, rest⟩

theorem tokensFrom_cons_blank {c : Char} (hc : Text.isBlank c = true) (pos : Nat)
    (cs : List Char) : tokensFrom pos (c :: cs) = tokensFrom (pos + c.utf8Size) cs := by
  rw [tokensFrom, if_pos hc]

theorem tokensFrom_cons_token {c : Char} {cs : List Char} {l : Lexeme}
    (hc : ¬ Text.isBlank c = true) (hnext : next c cs = .ok l) (pos : Nat) :
    tokensFrom pos (c :: cs) =
      (tokensFrom (pos + Text.byteLength l.taken) l.rest).map (⟨l.kind, pos⟩ :: ·) := by
  rw [tokensFrom, if_neg hc]
  split
  · next hfault => cases hnext.symm.trans hfault
  · next hl =>
    cases hnext.symm.trans hl
    rfl

theorem byteLength_append (cs ds : List Char) :
    Text.byteLength (cs ++ ds) = Text.byteLength cs + Text.byteLength ds := by
  induction cs with
  | nil => simp [Text.byteLength]
  | cons c cs ih => simp [Text.byteLength, ih, Nat.add_assoc]

theorem tokensFrom_blanks {gap : List Char} (hgap : ∀ c ∈ gap, Text.isBlank c = true) (pos : Nat)
    (text : List Char) :
    tokensFrom pos (gap ++ text) = tokensFrom (pos + Text.byteLength gap) text := by
  induction gap generalizing pos with
  | nil => rfl
  | cons c gap ih =>
      rw [List.forall_mem_cons] at hgap
      rw [List.cons_append, tokensFrom_cons_blank hgap.1, ih hgap.2, Text.byteLength, Nat.add_assoc]

theorem tokensFrom_of_layout {ws : List Word} {text : List Char} (h : Layout ws text)
    {ks : List Kind} (hspells : List.Forall₂ Spells ws ks) (pos : Nat) :
    ∃ tokens stop, tokensFrom pos text = .ok (tokens ++ [⟨.eof, stop⟩]) ∧
      tokens.map Token.kind = ks := by
  induction h generalizing ks pos with
  | done hgap =>
      cases hspells
      have hblanks := tokensFrom_blanks hgap pos []
      rw [List.append_nil, tokensFrom] at hblanks
      exact ⟨[], _, hblanks, rfl⟩
  | @word gap w text ws hgap hparted hmore ih =>
      cases hspells with
      | @cons _ k _ ks hword hwords =>
          obtain ⟨c, cs, rfl, hblank, hnext⟩ := hword
          obtain ⟨tokens, stop, htokens, hkinds⟩ :=
            ih hwords (pos + Text.byteLength gap + Text.byteLength (c :: cs))
          refine ⟨⟨k, pos + Text.byteLength gap⟩ :: tokens, stop, ?_, by rw [List.map_cons, hkinds]⟩
          rw [tokensFrom_blanks hgap, List.cons_append,
            tokensFrom_cons_token (Bool.eq_false_iff.mp hblank) (hnext text hparted), htokens]
          rfl

theorem wordKind_ne_eof (w : Word) : wordKind w ≠ .eof := by
  unfold wordKind
  split
  · exact Kind.noConfusion
  · dsimp only
    split
    · exact Kind.noConfusion
    · split <;> exact Kind.noConfusion

theorem number_kind_ne_eof (cs : List Char) : (number cs).kind ≠ .eof := by
  unfold number
  dsimp only
  split <;> exact Kind.noConfusion

/-- No character is scanned as the end of the text. -/
theorem next_kind_ne_eof {c : Char} {cs : List Char} {l : Lexeme} (h : next c cs = .ok l) :
    l.kind ≠ .eof := by
  unfold next at h
  repeat' split at h
  all_goals cases h
  · exact Kind.noConfusion
  · exact Kind.noConfusion
  · exact Kind.noConfusion
  · exact Kind.noConfusion
  · exact number_kind_ne_eof _
  · exact wordKind_ne_eof _
  · exact Kind.noConfusion

/-! What tells the characters of the words apart. -/

theorem isDigit_iff (c : Char) : c.isDigit = true ↔ 48 ≤ c.toNat ∧ c.toNat ≤ 57 := by
  simp only [Char.isDigit, Bool.and_eq_true, decide_eq_true_eq, ge_iff_le, UInt32.le_iff_toNat_le,
    Char.toNat_val, Char.reduceToNat]

theorem isWordStart_iff (c : Char) :
    isWordStart c = true ↔
      65 ≤ c.toNat ∧ c.toNat ≤ 90 ∨ 97 ≤ c.toNat ∧ c.toNat ≤ 122 ∨ c.toNat = 95 := by
  simp only [isWordStart, Char.isAlpha, Char.isUpper, Char.isLower, Bool.or_eq_true,
    Bool.and_eq_true, decide_eq_true_eq, beq_iff_eq, ge_iff_le, UInt32.le_iff_toNat_le,
    ← Char.toNat_inj, Char.toNat_val, Char.reduceToNat, or_assoc]

theorem isWordChar_iff (c : Char) :
    isWordChar c = true ↔ isWordStart c = true ∨ c.isDigit = true ∨ c.toNat = 46 := by
  simp only [isWordChar, isWordStart, Char.isAlphanum, Bool.or_eq_true, beq_iff_eq,
    ← Char.toNat_inj, Char.reduceToNat]
  tauto

/-- White space lies outside of the printable ASCII characters. -/
theorem isBlank_bounds {c : Char} (h : Text.isBlank c = true) : c.toNat ≤ 32 ∨ 133 ≤ c.toNat := by
  simp only [Text.isBlank, Bool.or_eq_true, Bool.and_eq_true, decide_eq_true_eq, beq_iff_eq] at h
  omega

theorem endsWord_bounds {c : Char} (h : endsWord c = true) :
    c.toNat ≤ 32 ∨ 133 ≤ c.toNat ∨ c.toNat = 40 ∨ c.toNat = 41 ∨ c.toNat = 44 := by
  simp only [endsWord, Bool.or_eq_true, beq_iff_eq, ← Char.toNat_inj, Char.reduceToNat] at h
  rcases h with ((h | h) | h) | h
  · have := isBlank_bounds h
    omega
  · omega
  · omega
  · omega

theorem not_isWordChar_of_endsWord {c : Char} (h : endsWord c = true) : isWordChar c = false := by
  have hbounds := endsWord_bounds h
  rw [Bool.eq_false_iff, Ne, isWordChar_iff, isWordStart_iff, isDigit_iff]
  omega

/-- What ends a word goes on with neither a numeral nor an operator. -/
theorem endsWord_stops {c : Char} (h : endsWord c = true) :
    c.isDigit = false ∧ c ≠ '.' ∧ c ≠ '=' := by
  have hbounds := endsWord_bounds h
  rw [Bool.eq_false_iff, Ne, isDigit_iff]
  refine ⟨by omega, ?_, ?_⟩ <;> (rintro rfl; exact absurd h (by decide))

theorem not_endsWord_of_isWordChar {c : Char} (h : isWordChar c = true) :
    endsWord c = false ∧ Text.isBlank c = false := by
  have hends : endsWord c = false := by
    rw [Bool.eq_false_iff]
    intro hends
    rw [not_isWordChar_of_endsWord hends] at h
    cases h
  simp only [endsWord, Bool.or_eq_false_iff] at hends ⊢
  exact ⟨hends, hends.1.1.1⟩

/-- In front of a word other than a mark the text ends. -/
theorem Parted.ends {w rest : List Char} (h : Parted w rest)
    (hw : ∀ c ∈ w.head?, endsWord c = false) : ∀ c ∈ rest.head?, endsWord c = true := by
  rcases h with rfl | rfl | rfl | h
  · exact absurd (hw '(' rfl) (by decide)
  · exact absurd (hw ')' rfl) (by decide)
  · exact absurd (hw ',' rfl) (by decide)
  · exact h

theorem next_of_isWordStart {c : Char} (h : isWordStart c = true) (cs : List Char) :
    next c cs = .ok (word (c :: cs)) := by
  have hbounds := (isWordStart_iff c).mp h
  have hne {d : Char} (hd : isWordStart d = false) : c ≠ d := by
    rintro rfl
    rw [h] at hd
    cases hd
  have hdigit : ¬ c.isDigit = true := by
    rw [isDigit_iff]
    omega
  rw [next, if_neg (hne rfl), if_neg (hne rfl), if_neg (hne rfl), if_neg (hne rfl), if_neg hdigit,
    if_pos h]

theorem next_of_isDigit {c : Char} (h : c.isDigit = true) (cs : List Char) :
    next c cs = .ok (number (c :: cs)) := by
  have hne {d : Char} (hd : d.isDigit = false) : c ≠ d := by
    rintro rfl
    rw [h] at hd
    cases hd
  rw [next, if_neg (hne rfl), if_neg (hne rfl), if_neg (hne rfl), if_neg (hne rfl), if_pos h]

/-! The words, one sort after the other. -/

theorem spells_word {w : Word} (hstart : w.head?.any isWordStart = true)
    (hchars : w.all isWordChar = true) : Spells w (wordKind w) := by
  rw [List.all_eq_true] at hchars
  cases w with
  | nil => cases hstart
  | cons c cs =>
      have hc : isWordStart c = true := hstart
      obtain ⟨hends, hblank⟩ := not_endsWord_of_isWordChar (hchars c List.mem_cons_self)
      refine ⟨c, cs, rfl, hblank, fun rest hparted => ?_⟩
      have hrest := hparted.ends (by rintro d ⟨⟩; exact hends)
      obtain ⟨htake, hdrop⟩ :=
        takeWhile_run hchars fun d hd => not_isWordChar_of_endsWord (hrest d hd)
      rw [next_of_isWordStart hc, word, ← List.cons_append, htake, hdrop]

theorem spells_keyword (k : Keyword) : Spells k.letters (.keyword k) := by
  have hkind : wordKind k.letters = .keyword k := by cases k <;> rfl
  rw [← hkind]
  cases k <;> exact spells_word rfl rfl

theorem spells_boolean (b : Bool) : Spells (toString b).toList (.boolean b) := by
  have hkind : wordKind (toString b).toList = .boolean b := by cases b <;> rfl
  rw [← hkind]
  cases b <;> exact spells_word rfl rfl

theorem IsName.wordKind {name : String} (h : IsName name) :
    wordKind name.toList = .identifier name := by
  have hkeyword : Keyword.ofWord? name.toList = none := by
    refine List.find?_eq_none.mpr fun k _ => ?_
    rw [beq_iff_eq]
    exact fun hk => h.notKeyword k hk.symm
  have htrue : name.toList.map Char.toLower ≠ "true".toList := h.notTruth true
  have hfalse : name.toList.map Char.toLower ≠ "false".toList := h.notTruth false
  rw [Lexeme.wordKind, hkeyword]
  dsimp only
  rw [if_neg htrue, if_neg hfalse, String.ofList_toList]

theorem IsName.spells {name : String} (h : IsName name) :
    Spells name.toList (.identifier name) := by
  rw [← h.wordKind]
  exact spells_word h.start h.chars

/-- A text as it stands between quotes: each character for itself or behind a backslash. -/
inductive Quoted : List Char → List Char → Prop
  | nil : Quoted [] []
  | plain {c : Char} {text body : List Char} (hquote : c ≠ '"') (hslash : c ≠ '\\')
      (h : Quoted text body) : Quoted (c :: text) (c :: body)
  | escaped (c : Char) {text body : List Char} (h : Quoted text body) :
      Quoted (unescape c :: text) ('\\' :: c :: body)

theorem quoted?_of_quoted {text body : List Char} (h : Quoted text body) (rest : List Char) :
    quoted? (body ++ '"' :: rest) = some (text, body ++ ['"'], rest) := by
  induction h with
  | nil => rfl
  | plain hquote hslash _ ih =>
      rw [List.cons_append, quoted?, ih]
      · rfl
      · exact hquote
      · exact fun h _ => hslash h
      · exact fun _ _ h => absurd h hslash
  | escaped c _ ih =>
      rw [List.cons_append, List.cons_append, quoted?, ih]
      rfl

theorem quoted_escape (text : List Char) : Quoted text (text.flatMap escape) := by
  induction text with
  | nil => exact .nil
  | cons c text ih =>
      rw [List.flatMap_cons, escape]
      split
      · next hescaped =>
        rcases hescaped with rfl | rfl
        · exact .escaped '"' ih
        · exact .escaped '\\' ih
      · next hplain =>
        rw [not_or] at hplain
        exact .plain hplain.1 hplain.2 ih

theorem next_of_quoted {text body : List Char} (h : Quoted text body) (rest : List Char) :
    next '"' (body ++ '"' :: rest) =
      .ok ⟨.string (String.ofList text), '"' :: (body ++ ['"']), rest⟩ := by
  rw [next, if_neg (by decide), if_neg (by decide), if_neg (by decide), if_pos rfl,
    quoted?_of_quoted h]

theorem spells_quoted {text : String} {body : List Char} (h : Quoted text.toList body) :
    Spells ('"' :: (body ++ ['"'])) (.string text) := by
  refine ⟨'"', body ++ ['"'], rfl, rfl, fun rest _ => ?_⟩
  rw [List.append_assoc, List.singleton_append, next_of_quoted h, String.ofList_toList]

theorem spells_quote (text : String) : Spells (quote text) (.string text) :=
  spells_quoted (quoted_escape text.toList)

/-- A numeral is scanned as a whole, whatever ends it. -/
theorem number_chars {n : Decimal.Numeral} (hn : n.Plain) {rest : List Char}
    (hrest : ∀ c ∈ rest.head?, endsWord c = true) :
    number (n.chars ++ rest) = ⟨.number n.value n.fraction.isEmpty, n.chars, rest⟩ := by
  obtain ⟨whole, fraction, exponent⟩ := n
  obtain ⟨-, hdigits, rfl⟩ := hn
  rw [List.forall_mem_append] at hdigits
  obtain ⟨hwhole, hfraction⟩ := hdigits
  have hdigit : ∀ c ∈ rest.head?, c.isDigit = false :=
    fun c hc => (endsWord_stops (hrest c hc)).1
  cases fraction with
  | nil =>
      obtain ⟨htake, hdrop⟩ := takeWhile_run hwhole hdigit
      have hnone : fraction? rest = none := by
        unfold fraction?
        split
        · exact absurd rfl (endsWord_stops (hrest '.' rfl)).2.1
        · rfl
      show number (whole ++ rest) = _
      rw [number, htake, hdrop]
      dsimp only
      rw [hnone]
      rfl
  | cons d ds =>
      have hpoint : ∀ c ∈ ('.' :: (d :: ds ++ rest)).head?, c.isDigit = false := by
        rintro c ⟨⟩
        rfl
      obtain ⟨htake, hdrop⟩ := takeWhile_run hwhole hpoint
      obtain ⟨htake', hdrop'⟩ := takeWhile_run hfraction hdigit
      have hsome : fraction? ('.' :: (d :: ds ++ rest)) = some (d :: ds, rest) := by
        rw [fraction?, htake']
        dsimp only
        rw [hdrop']
      show number ((whole ++ '.' :: d :: ds) ++ rest) = _
      rw [List.append_assoc, List.cons_append, number, htake, hdrop]
      dsimp only
      rw [hsome]
      rfl

theorem spells_number {n : Decimal.Numeral} (hn : n.Plain) :
    Spells n.chars (.number n.value n.fraction.isEmpty) := by
  obtain ⟨c, cs, hchars, hc⟩ := hn.chars_eq_cons
  obtain ⟨hends, hblank⟩ :=
    not_endsWord_of_isWordChar ((isWordChar_iff c).mpr (Or.inr (Or.inl hc)))
  refine ⟨c, cs, hchars, hblank, fun rest hparted => ?_⟩
  have hrest := hparted.ends (by rw [hchars]; rintro d ⟨⟩; exact hends)
  rw [next_of_isDigit hc, ← List.cons_append, ← hchars, number_chars hn hrest]

theorem operator?_strict {rest : List Char} (h : ∀ d ∈ rest.head?, d ≠ '=') :
    operator? '>' rest = some (.gt, ['>'], rest) ∧
      operator? '<' rest = some (.lt, ['<'], rest) := by
  cases rest with
  | nil => exact ⟨rfl, rfl⟩
  | cons d rest =>
      have hd := h d rfl
      constructor <;> simp [operator?, hd]

theorem next_of_strict {c : Char} {op : CompareOp} {rest : List Char} (hc : c = '>' ∨ c = '<')
    (hop : operator? c rest = some (op, [c], rest)) :
    next c rest = .ok ⟨.operator op, [c], rest⟩ := by
  rcases hc with rfl | rfl <;>
  · unfold next
    rw [hop]
    rfl

theorem spells_operator (op : CompareOp) : Spells op.symbol.toList (.operator op) := by
  cases op with
  | eq => exact ⟨'=', [], rfl, rfl, fun _ _ => rfl⟩
  | ne => exact ⟨'!', ['='], rfl, rfl, fun _ _ => rfl⟩
  | ge => exact ⟨'>', ['='], rfl, rfl, fun _ _ => rfl⟩
  | le => exact ⟨'<', ['='], rfl, rfl, fun _ _ => rfl⟩
  | gt =>
      refine ⟨'>', [], rfl, rfl, fun rest hparted => ?_⟩
      have hrest := hparted.ends (by rintro d ⟨⟩; rfl)
      have hop := operator?_strict fun d hd => (endsWord_stops (hrest d hd)).2.2
      exact next_of_strict (.inl rfl) hop.1
  | lt =>
      refine ⟨'<', [], rfl, rfl, fun rest hparted => ?_⟩
      have hrest := hparted.ends (by rintro d ⟨⟩; rfl)
      have hop := operator?_strict fun d hd => (endsWord_stops (hrest d hd)).2.2
      exact next_of_strict (.inr rfl) hop.2

theorem spells_lparen : Spells ['('] .lparen :=
  ⟨'(', [], rfl, rfl, fun _ _ => rfl⟩

theorem spells_rparen : Spells [')'] .rparen :=
  ⟨')', [], rfl, rfl, fun _ _ => rfl⟩

theorem spells_comma : Spells [','] .comma :=
  ⟨',', [], rfl, rfl, fun _ _ => rfl⟩

end Slipbox.Query
