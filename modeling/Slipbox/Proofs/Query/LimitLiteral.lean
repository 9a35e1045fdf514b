import Slipbox.Proofs.Decimal.Monotone
import Slipbox.Proofs.Query.Parsing
import Slipbox.Proofs.Query.Scanned

/-! Queries that differ only in the number of their limit. Nowhere but at the head of a clause does
the grammar have the keyword `LIMIT`, and a text is scanned up to the blank behind it on its own; so
what is written there decides the limit and nothing else. -/

namespace Slipbox.Query

open Grammar Lexeme

namespace Grammar

variable {k : Keyword}

/-- A chain has a clause keyword only where its items have one. -/
theorem Chain.not_mem_clause (hk : k.isClause = true) {op : Connective}
    {Item : List Kind → Condition → Prop} {n : Nat}
    (hitem : ∀ ks c, ks.length < n → Item ks c → Kind.keyword k ∉ ks) {ks : List Kind}
    {c : Condition} (hlength : ks.length < n) (h : Chain op Item ks c) : Kind.keyword k ∉ ks := by
  induction h with
  | one hfirst => exact hitem _ _ hlength hfirst
  | more _ hright ih =>
      simp only [List.length_append, List.length_cons] at hlength
      have hop : Kind.keyword k ≠ .keyword op.keyword := by
        cases op <;> (rintro ⟨⟩; cases hk)
      rw [List.mem_append, List.mem_cons, not_or, not_or]
      exact ⟨ih (by omega), hop, hitem _ _ (by omega) hright⟩

theorem Value.ne_keyword {k' : Kind} {value : Literal} (h : Value k' value) :
    Kind.keyword k ≠ k' := by
  cases h <;> exact Kind.noConfusion

theorem Primary.not_mem_clause (hk : k.isClause = true) {ks : List Kind} {c : Condition}
    (h : Primary ks c) : Kind.keyword k ∉ ks := by
  induction hn : ks.length using Nat.strong_induction_on generalizing ks c with
  | _ n ih =>
    subst hn
    cases h with
    | @group inside _ hinner =>
        have hinside : Kind.keyword k ∉ inside := by
          refine Chain.not_mem_clause hk (n := inside.length + 1) (fun ks c hlength hitem => ?_)
            (Nat.lt_succ_self _) hinner
          refine Chain.not_mem_clause hk (fun ks c hlength hitem => ?_) hlength hitem
          exact ih _ (by simp only [List.length_cons, List.length_append]; omega) hitem rfl
        simpa using hinside
    | contains name hvalue =>
        have hcontains : k ≠ .contains := by
          rintro rfl
          cases hk
        simpa [hcontains] using hvalue.ne_keyword
    | compare name op hvalue => simpa using hvalue.ne_keyword

theorem Disjunction.not_mem_clause (hk : k.isClause = true) {ks : List Kind} {c : Condition}
    (h : Disjunction ks c) : Kind.keyword k ∉ ks :=
  Chain.not_mem_clause hk (fun _ _ hlength hitem =>
    Chain.not_mem_clause hk (fun _ _ _ => Primary.not_mem_clause hk) hlength hitem)
    (Nat.lt_succ_self _) h

end Grammar

/-- The digits of a whole number. -/
structure IntegerLiteral where
  digits : List Char
  nonempty : digits ≠ []
  isDigit : ∀ c ∈ digits, c.isDigit = true

namespace IntegerLiteral

/-- The number that the digits spell. -/
def value (n : IntegerLiteral) : Nat :=
  Decimal.digitsValue n.digits

/-- The double that the digits are read as. -/
def double (n : IntegerLiteral) : Float :=
  Decimal.Numeral.value ⟨n.digits, [], 0⟩

/-- The limit that is made of the digits: their double, cut off to sixty-four bits. -/
def limit (n : IntegerLiteral) : Nat :=
  n.double.toUInt64.toNat

end IntegerLiteral

namespace LimitGap

end LimitGap

end Slipbox.Query
