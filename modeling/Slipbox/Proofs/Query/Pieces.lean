import Slipbox.Proofs.Query.Scanned
import Slipbox.Proofs.Query.TokenSpelling

/-! A text in pieces. What is scanned falls into written tokens with white space behind them, and
each token stands at the byte at which its word starts; written tokens with white space between them
are scanned as these tokens. A text that is refused falls into pieces up to the fault. -/

namespace Slipbox.Query

open Lexeme
open Text (byteLength)

/-- A token in a text: what it is, how it is written there, and the white space behind it. -/
structure Piece where
  kind : Kind
  word : Word
  gap : List Char
  spelled : Spelling kind word
  blank : ∀ c ∈ gap, Text.isBlank c = true

namespace Piece

def text (p : Piece) : List Char :=
  p.word ++ p.gap

/-- Of no piece the scanner could have taken more. -/
def Greedy : List Piece → Prop
  | [] => True
  | p :: ps =>
    Longest ⟨p.kind, p.word, p.gap ++ ps.flatMap text⟩ ((p :: ps).flatMap text) ∧ Greedy ps

/-- The tokens of pieces that stand one behind the other from a byte on. -/
def tokens : Nat → List Piece → List Token
  | _, [] => []
  | pos, p :: ps => ⟨p.kind, pos⟩ :: tokens (pos + byteLength p.text) ps

theorem kind_ne_eof (p : Piece) : p.kind ≠ .eof := by
  obtain ⟨kind, word, gap, spelled, blank⟩ := p
  cases spelled <;> exact Kind.noConfusion

theorem byteLength_pos (p : Piece) : 0 < byteLength p.text := by
  obtain ⟨c, cs, hword, -⟩ := p.spelled.spells
  have hsize := c.utf8Size_pos
  rw [text, hword, List.cons_append, byteLength]
  omega

/-- A token stands behind the pieces in front of its own. -/
theorem exists_of_mem_tokens {pos : Nat} {pieces : List Piece} {t : Token}
    (h : t ∈ tokens pos pieces) : ∃ front p back, pieces = front ++ p :: back ∧
      t = ⟨p.kind, pos + byteLength (front.flatMap text)⟩ := by
  induction pieces generalizing pos with
  | nil => cases h
  | cons p ps ih =>
      rw [tokens, List.mem_cons] at h
      rcases h with rfl | h
      · exact ⟨[], p, ps, rfl, rfl⟩
      · obtain ⟨front, q, back, rfl, rfl⟩ := ih h
        refine ⟨p :: front, q, back, rfl, ?_⟩
        rw [List.flatMap_cons, byteLength_append, Nat.add_assoc]

theorem position_bounds {pos : Nat} {pieces : List Piece} {t : Token}
    (h : t ∈ tokens pos pieces) :
    pos ≤ t.position ∧ t.position < pos + byteLength (pieces.flatMap text) := by
  obtain ⟨front, p, back, rfl, rfl⟩ := exists_of_mem_tokens h
  have hpos := p.byteLength_pos
  simp only [List.flatMap_append, List.flatMap_cons, byteLength_append]
  omega

theorem tokens_increasing (pos : Nat) (pieces : List Piece) :
    (tokens pos pieces).Pairwise fun s t => s.position < t.position := by
  induction pieces generalizing pos with
  | nil => exact .nil
  | cons p ps ih =>
      refine .cons (fun t ht => ?_) (ih _)
      have hafter := (position_bounds ht).1
      have hpos := p.byteLength_pos
      dsimp only
      omega

end Piece

/-- Written tokens with white space between any two of them are scanned as what they are. -/
theorem tokensFrom_pieces {pieces : List Piece} (hgaps : ∀ p ∈ pieces.dropLast, p.gap ≠ [])
    (pos : Nat) : tokensFrom pos (pieces.flatMap Piece.text) =
      .ok (Piece.tokens pos pieces ++ [⟨.eof, pos + byteLength (pieces.flatMap Piece.text)⟩]) := by
  induction pieces generalizing pos with
  | nil =>
      rw [List.flatMap_nil, tokensFrom, Piece.tokens, byteLength, List.nil_append, Nat.add_zero]
  | cons p ps ih =>
      have hparted : Parted p.word (p.gap ++ ps.flatMap Piece.text) := by
        refine .inr (.inr (.inr fun c hc => ?_))
        cases hgap : p.gap with
        | cons d gap =>
            rw [hgap] at hc
            cases hc
            have hblank := p.blank c (hgap ▸ List.mem_cons_self)
            simp [endsWord, hblank]
        | nil =>
            cases ps with
            | nil =>
                rw [hgap] at hc
                cases hc
            | cons q ps => exact absurd hgap (hgaps p List.mem_cons_self)
      have hmore : ∀ q ∈ ps.dropLast, q.gap ≠ [] := by
        cases ps with
        | nil => exact List.forall_mem_nil _
        | cons q ps => exact fun r hr => hgaps r (List.mem_cons_of_mem p hr)
      obtain ⟨c, cs, hword, hblank, hnext⟩ := p.spelled.spells
      have htoken := tokensFrom_cons_token (Bool.eq_false_iff.mp hblank) (hnext _ hparted) pos
      rw [← List.cons_append, ← hword] at htoken
      have hrest : tokensFrom (pos + byteLength p.word) (p.gap ++ ps.flatMap Piece.text) =
          .ok (Piece.tokens (pos + byteLength p.text) ps ++
            [⟨.eof, pos + byteLength ((p :: ps).flatMap Piece.text)⟩]) := by
        rw [tokensFrom_blanks p.blank, ih hmore, List.flatMap_cons, Piece.text]
        simp only [byteLength_append, Nat.add_assoc]
      calc tokensFrom pos ((p :: ps).flatMap Piece.text)
          = tokensFrom pos (p.word ++ (p.gap ++ ps.flatMap Piece.text)) := by
            rw [List.flatMap_cons, Piece.text, List.append_assoc]
        _ = (tokensFrom (pos + byteLength p.word) (p.gap ++ ps.flatMap Piece.text)).map
            (⟨p.kind, pos⟩ :: ·) := htoken
        _ = .ok (Piece.tokens pos (p :: ps) ++
            [⟨.eof, pos + byteLength ((p :: ps).flatMap Piece.text)⟩]) := by
            rw [hrest]
            rfl

/-- A scanned text falls into pieces behind white space. -/
theorem Scanned.pieces {pos : Nat} {cs : List Char} {tokens : List Token}
    (h : Scanned pos cs tokens) : ∃ lead pieces, (∀ c ∈ lead, Text.isBlank c = true) ∧
      lead ++ pieces.flatMap Piece.text = cs ∧ Piece.Greedy pieces ∧
      tokens = Piece.tokens (pos + byteLength lead) pieces ++ [⟨.eof, pos + byteLength cs⟩] := by
  induction h with
  | done pos => exact ⟨[], [], List.forall_mem_nil _, rfl, trivial, rfl⟩
  | @blank pos c cs tokens hc _ ih =>
      obtain ⟨lead, pieces, hlead, rfl, hgreedy, rfl⟩ := ih
      refine ⟨c :: lead, pieces, List.forall_mem_cons.mpr ⟨hc, hlead⟩, rfl, hgreedy, ?_⟩
      rw [byteLength, byteLength, Nat.add_assoc, Nat.add_assoc]
  | @token pos c cs l tokens hc hnext _ ih =>
      obtain ⟨kind, word, rest⟩ := l
      obtain ⟨lead, pieces, hlead, rfl, hgreedy, rfl⟩ := ih
      have hlongest := next_eq_ok_iff.mp hnext
      let p : Piece := ⟨kind, word, lead, hlongest.spelled, hlead⟩
      have hparts : (p :: pieces).flatMap Piece.text = c :: cs := by
        rw [List.flatMap_cons, Piece.text, List.append_assoc]
        exact hlongest.parts
      refine ⟨[], p :: pieces, List.forall_mem_nil _, hparts, ⟨?_, hgreedy⟩, ?_⟩
      · rw [hparts]
        exact hlongest
      · rw [← hlongest.parts]
        simp only [p, Piece.tokens, Piece.text, byteLength, byteLength_append, Nat.add_assoc,
          Nat.add_zero, List.cons_append]

/-- A refused text is refused at a character, and what stands in front of it is scanned. -/
theorem tokensFrom_error {pos : Nat} {cs : List Char} {e : Located}
    (h : tokensFrom pos cs = .error e) :
    ∃ before c after, before ++ c :: after = cs ∧ pos + byteLength before = e.position ∧
      ¬ Text.isBlank c = true ∧ next c after = .error e.fault ∧
      ∃ tokens, tokensFrom pos before = .ok tokens := by
  induction pos, cs using tokensFrom.induct with
  | case1 pos =>
      rw [tokensFrom] at h
      cases h
  | case2 pos c cs hc ih =>
      rw [tokensFrom_cons_blank hc] at h
      obtain ⟨before, d, after, rfl, hposition, hd, hnext, tokens, htokens⟩ := ih h
      refine ⟨c :: before, d, after, rfl, ?_, hd, hnext, tokens, ?_⟩
      · rw [← hposition, byteLength, Nat.add_assoc]
      · rw [tokensFrom_cons_blank hc, htokens]
  | case3 pos c cs hc fault hfault =>
      rw [tokensFrom, if_neg hc] at h
      split at h
      · next hfault' =>
        cases h
        exact ⟨[], c, cs, rfl, rfl, hc, hfault', _, by rw [tokensFrom]⟩
      · next hl => cases hfault.symm.trans hl
  | case4 pos c cs hc l hl _ ih =>
      rw [tokensFrom_cons_token hc hl] at h
      cases hrest : tokensFrom (pos + byteLength l.taken) l.rest with
      | ok tokens =>
          rw [hrest] at h
          cases h
      | error e' =>
          rw [hrest] at h
          cases h
          obtain ⟨before, d, after, hparts, hposition, hd, hnext, tokens, htokens⟩ := ih hrest
          obtain ⟨ds, hds, hcut⟩ := next_cut hl hparts.symm
          refine ⟨l.taken ++ before, d, after, ?_, ?_, hd, hnext, ⟨l.kind, pos⟩ :: tokens, ?_⟩
          · rw [List.append_assoc, hparts, (spelling_of_next hl).1]
          · rw [← hposition, byteLength_append, Nat.add_assoc]
          · rw [hds, tokensFrom_cons_token hc hcut, htokens]
            rfl

/-- The offsets at which characters start are the sizes of what stands in front of them. -/
theorem mem_boundaries {cs : List Char} {n : Nat} :
    n ∈ Snippet.boundaries cs ↔ ∃ front back, front ++ back = cs ∧ byteLength front = n := by
  have hscan (start : Nat) : n ∈ cs.scanl (fun n c => n + c.utf8Size) start ↔
      ∃ front back, front ++ back = cs ∧ start + byteLength front = n := by
    induction cs generalizing start with
    | nil => simp [byteLength, eq_comm]
    | cons c cs ih =>
        rw [List.scanl_cons, List.mem_cons, ih]
        constructor
        · intro h
          rcases h with rfl | ⟨front, back, rfl, rfl⟩
          · exact ⟨[], c :: cs, rfl, rfl⟩
          · exact ⟨c :: front, back, rfl, by rw [byteLength, Nat.add_assoc]⟩
        · intro h
          obtain ⟨front, back, hparts, rfl⟩ := h
          cases front with
          | nil => exact .inl rfl
          | cons d front =>
              cases hparts
              exact .inr ⟨front, back, rfl, by rw [byteLength, Nat.add_assoc]⟩
  simpa [Snippet.boundaries] using hscan 0

/-- The tokens of a text: what is written in it piece by piece behind white space, and the end. They
start at characters and from left to right. -/
structure Partition (text : List Char) (tokens : List Token) : Prop where
  pieces : ∃ lead pieces, (∀ c ∈ lead, Text.isBlank c = true) ∧
    lead ++ pieces.flatMap Piece.text = text ∧ Piece.Greedy pieces ∧
    tokens = Piece.tokens (byteLength lead) pieces ++ [⟨.eof, byteLength text⟩]
  increasing : tokens.Pairwise fun s t => s.position < t.position
  boundary : ∀ t ∈ tokens, t.position ∈ Snippet.boundaries text
  ends : ∀ t ∈ tokens.dropLast, t.kind ≠ .eof

/-- A fault in a text: no token starts at its character, and what stands in front of it has
tokens. -/
structure Stops (text : List Char) (e : Located) : Prop where
  boundary : e.position ∈ Snippet.boundaries text
  inside : e.position < byteLength text
  refused : ∃ before c after, text = before ++ c :: after ∧ byteLength before = e.position ∧
    Text.isBlank c = false ∧ Refused c after e.fault ∧
    ∃ tokens, tokenize (String.ofList before) = .ok tokens

theorem partition_of_tokensFrom {cs : List Char} {tokens : List Token}
    (h : tokensFrom 0 cs = .ok tokens) : Partition cs tokens := by
  obtain ⟨lead, pieces, hlead, hcs, hgreedy, htokens⟩ := (scanned_iff.mp h).pieces
  rw [Nat.zero_add, Nat.zero_add] at htokens
  have hsize : byteLength cs = byteLength lead + byteLength (pieces.flatMap Piece.text) := by
    rw [← hcs, byteLength_append]
  refine ⟨⟨lead, pieces, hlead, hcs, hgreedy, htokens⟩, ?_, ?_, ?_⟩
  · rw [htokens, List.pairwise_append]
    refine ⟨Piece.tokens_increasing _ _, List.pairwise_singleton _ _, fun s hs t ht => ?_⟩
    rw [List.mem_singleton.mp ht, hsize]
    exact (Piece.position_bounds hs).2
  · intro t ht
    rw [htokens, List.mem_append, List.mem_singleton] at ht
    rcases ht with ht | rfl
    · obtain ⟨front, p, back, rfl, rfl⟩ := Piece.exists_of_mem_tokens ht
      refine mem_boundaries.mpr ⟨lead ++ front.flatMap Piece.text, (p :: back).flatMap Piece.text,
        ?_, byteLength_append _ _⟩
      rw [← hcs, List.flatMap_append, List.append_assoc]
    · exact mem_boundaries.mpr ⟨cs, [], List.append_nil cs, rfl⟩
  · intro t ht
    rw [htokens, List.dropLast_concat] at ht
    obtain ⟨-, p, -, -, rfl⟩ := Piece.exists_of_mem_tokens ht
    exact p.kind_ne_eof

theorem stops_of_tokensFrom {cs : List Char} {e : Located} (h : tokensFrom 0 cs = .error e) :
    Stops cs e := by
  obtain ⟨before, c, after, rfl, hposition, hblank, hnext, tokens, htokens⟩ := tokensFrom_error h
  rw [Nat.zero_add] at hposition
  have hsize := c.utf8Size_pos
  refine ⟨mem_boundaries.mpr ⟨before, c :: after, rfl, hposition⟩, ?_, before, c, after, rfl,
    hposition, Bool.eq_false_iff.mpr hblank, refused_of_next hnext, tokens, ?_⟩
  · rw [← hposition, byteLength_append, byteLength]
    omega
  · rw [tokenize, String.toList_ofList, htokens]

/-- A text has tokens that take it apart, or it stops them at a fault. -/
theorem tokenize_takes_apart (text : String) :
    match tokenize text with
    | .ok tokens => Partition text.toList tokens
    | .error e => Stops text.toList e := by
  rw [tokenize]
  split
  · next h => exact partition_of_tokensFrom h
  · next h => exact stops_of_tokensFrom h

/-- Written tokens with white space between any two of them are the tokens of their text, each at
the byte where it is written. A number is whole if it is written without a point. -/
theorem tokenize_written {lead : List Char} {pieces : List Piece}
    (hlead : ∀ c ∈ lead, Text.isBlank c = true) (hgaps : ∀ p ∈ pieces.dropLast, p.gap ≠ []) :
    tokenize (String.ofList (lead ++ pieces.flatMap Piece.text)) =
        .ok (Piece.tokens (byteLength lead) pieces ++
          [⟨.eof, byteLength (lead ++ pieces.flatMap Piece.text)⟩]) ∧
      ∀ p ∈ pieces, ∀ value integer, p.kind = .number value integer →
        (integer = true ↔ '.' ∉ p.word) := by
  refine ⟨?_, fun p _ value integer hkind => ?_⟩
  · rw [tokenize, String.toList_ofList, tokensFrom_blanks hlead, Nat.zero_add,
      tokensFrom_pieces hgaps, byteLength_append]
  · obtain ⟨kind, word, gap, spelled, blank⟩ := p
    cases hkind
    cases spelled with
    | number hplain => exact hplain.isEmpty_fraction_iff

/-- Words in mixed case, an operator that another one begins, a fraction and a text with escapes. -/
theorem tokenize_written_mixed :
    tokenize " wHeRe\ttags.x\u00a0>=  1.50\n\"\\\"é\\n\" )" = .ok
      [⟨.keyword .where, 1⟩, ⟨.identifier "tags.x", 7⟩, ⟨.operator .ge, 15⟩,
        ⟨.number (Decimal.Numeral.value ⟨['1'], ['5', '0'], 0⟩) false, 19⟩,
        ⟨.string "\"é\n", 24⟩, ⟨.rparen, 33⟩, ⟨.eof, 34⟩] := by
  let pieces : List Piece :=
    [⟨.keyword .where, "wHeRe".toList, ['\t'], .keyword (by decide), List.all_eq_true.mp rfl⟩,
      ⟨.identifier "tags.x", _, ['\u00a0'], .identifier (by decide +kernel),
        List.all_eq_true.mp rfl⟩,
      ⟨.operator .ge, _, [' ', ' '], .operator .ge, List.all_eq_true.mp rfl⟩,
      ⟨_, _, ['\n'], .number (n := ⟨['1'], ['5', '0'], 0⟩)
        ⟨by decide, List.all_eq_true.mp rfl, rfl⟩, List.all_eq_true.mp rfl⟩,
      ⟨.string "\"é\n", '"' :: (['\\', '"', 'é', '\\', 'n'] ++ ['"']), [' '], .string (by
        rw [show "\"é\n".toList = [unescape '"', 'é', unescape 'n'] from by decide +kernel]
        exact .escaped '"' (.plain (by decide) (by decide) (.escaped 'n' .nil))),
        List.all_eq_true.mp rfl⟩,
      ⟨.rparen, _, [], .rparen, List.all_eq_true.mp rfl⟩]
  have hlead : ∀ c ∈ [' '], Text.isBlank c = true := List.all_eq_true.mp rfl
  have hgaps : ∀ p ∈ pieces.dropLast, p.gap ≠ [] := by simp [pieces]
  obtain ⟨htokens, -⟩ := tokenize_written hlead hgaps
  have htext : String.ofList ([' '] ++ pieces.flatMap Piece.text) =
      " wHeRe\ttags.x\u00a0>=  1.50\n\"\\\"é\\n\" )" := by decide +kernel
  rw [← htext, htokens]
  exact congrArg Except.ok rfl

end Slipbox.Query
