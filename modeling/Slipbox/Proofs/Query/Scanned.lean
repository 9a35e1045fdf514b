import Slipbox.Proofs.Query.Lexing
import Slipbox.Proofs.Query.Parsing

/-! Texts and their tokens as a relation. No token goes on over a blank, so a text that ends with one
is scanned without regard to what stands behind it; and of where a text starts its tokens show no
more than in their positions. -/

namespace Slipbox.Query

open Lexeme

variable {b : Char} {u : List Char}

/-- A text that starts at some byte is scanned as tokens. -/
inductive Scanned : Nat → List Char → List Token → Prop
  | done (pos : Nat) : Scanned pos [] [⟨.eof, pos⟩]
  | blank {pos : Nat} {c : Char} {cs : List Char} {tokens : List Token}
      (hc : Text.isBlank c = true) (hmore : Scanned (pos + c.utf8Size) cs tokens) :
      Scanned pos (c :: cs) tokens
  | token {pos : Nat} {c : Char} {cs : List Char} {l : Lexeme} {tokens : List Token}
      (hc : ¬ Text.isBlank c = true) (hnext : next c cs = .ok l)
      (hmore : Scanned (pos + Text.byteLength l.taken) l.rest tokens) :
      Scanned pos (c :: cs) (⟨l.kind, pos⟩ :: tokens)

theorem scanned_iff {pos : Nat} {cs : List Char} {tokens : List Token} :
    tokensFrom pos cs = .ok tokens ↔ Scanned pos cs tokens := by
  constructor
  · intro h
    induction pos, cs using tokensFrom.induct generalizing tokens with
    | case1 pos =>
        rw [tokensFrom] at h
        cases h
        exact .done pos
    | case2 pos c cs hc ih =>
        rw [tokensFrom_cons_blank hc] at h
        exact .blank hc (ih h)
    | case3 pos c cs hc fault hfault =>
        rw [tokensFrom, if_neg hc] at h
        split at h
        · cases h
        · next hl => cases hfault.symm.trans hl
    | case4 pos c cs hc l hl _ ih =>
        rw [tokensFrom_cons_token hc hl] at h
        obtain ⟨rest, hrest, rfl⟩ := map_eq_ok.mp h
        exact .token hc hl (ih hrest)
  · intro h
    induction h with
    | done pos => rw [tokensFrom]
    | blank hc _ ih => rw [tokensFrom_cons_blank hc, ih]
    | token hc hnext _ ih =>
        rw [tokensFrom_cons_token hc hnext, ih]
        rfl

/-- Only the last token marks the end, and the kinds do not depend on where the text starts. -/
theorem Scanned.kinds {pos : Nat} {cs : List Char} {tokens : List Token}
    (h : Scanned pos cs tokens) :
    ∃ items stop, tokens = items ++ [⟨.eof, stop⟩] ∧ (∀ t ∈ items, t.kind ≠ .eof) ∧
      ∀ pos', ∃ items' stop', Scanned pos' cs (items' ++ [⟨.eof, stop'⟩]) ∧
        items'.map Token.kind = items.map Token.kind := by
  induction h with
  | done pos => exact ⟨[], pos, rfl, List.forall_mem_nil _, fun pos' => ⟨[], pos', .done pos', rfl⟩⟩
  | blank hc _ ih =>
      obtain ⟨items, stop, htokens, hitems, hshift⟩ := ih
      refine ⟨items, stop, htokens, hitems, fun pos' => ?_⟩
      obtain ⟨items', stop', hscanned, hkinds⟩ := hshift (pos' + _)
      exact ⟨items', stop', .blank hc hscanned, hkinds⟩
  | @token pos c cs l tokens hc hnext _ ih =>
      obtain ⟨items, stop, rfl, hitems, hshift⟩ := ih
      refine ⟨⟨l.kind, pos⟩ :: items, stop, rfl,
        List.forall_mem_cons.mpr ⟨next_kind_ne_eof hnext, hitems⟩, fun pos' => ?_⟩
      obtain ⟨items', stop', hscanned, hkinds⟩ := hshift (pos' + Text.byteLength l.taken)
      exact ⟨⟨l.kind, pos'⟩ :: items', stop', .token hc hnext hscanned, by simp [hkinds]⟩

/-- A text is parsed as its tokens are derived. -/
theorem parse_eq_ok_iff {text : String} {items : List Token} {stop : Nat}
    (h : tokenize text = .ok (items ++ [⟨.eof, stop⟩])) {q : Query} :
    parse text = .ok q ↔ Grammar.Derives (items.map Token.kind) q := by
  obtain ⟨items', stop', htokens, hitems, -⟩ := (scanned_iff.mp h).kinds
  obtain ⟨rfl, -⟩ := List.append_inj' htokens rfl
  have hread : (tokenize text >>= ofTokens) = Parse.query ⟨items, stop⟩ := by
    rw [h, ok_bind, ofTokens, Stream.ofTokens_marked hitems rfl, ok_bind]
  rw [← Parse.query_eq_ok_iff (s := ⟨items, stop⟩) hitems, parse, hread]
  cases Parse.query ⟨items, stop⟩ <;> simp

end Slipbox.Query
