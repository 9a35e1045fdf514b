import Slipbox.Proofs.Sql.Grammar

/-! The reader of conditions reads every phrase of the grammar. A test reads on over a collation
and a chain over the word that joins it, so a phrase is read up to its end only where neither
follows. -/

namespace Slipbox.Sql

open Grammar

/-- The reader reads every phrase of fewer than `n` pieces, provided that it can stop behind it. -/
def Complete (n : Nat) (Stops : List Lexeme → Prop)
    (read : List Lexeme → Option (Parsed Condition)) (D : List Lexeme → Condition → Prop) : Prop :=
  ∀ ls c rest, ls.length < n → D ls c → Stops rest → read (ls ++ rest) = some (c, rest)

/-- The next piece is not the word. -/
def Avoids (w : String) (rest : List Lexeme) : Prop :=
  rest.head? ≠ some (.word w)

namespace Read

theorem ofSpelling?_spelling (c : Column) :
    Column.ofSpelling? c.spelling.1 c.spelling.2 = some c := by
  cases c <;> rfl

theorem column_pieces (c : Column) (rest : List Lexeme) :
    column (c.pieces ++ rest) = some (c, rest) := by
  simp [column, Column.pieces, ofSpelling?_spelling]

theorem simple_complete {ls : List Lexeme} {a : Scalar} (h : Simple ls a) (rest : List Lexeme) :
    simple (ls ++ rest) = some (a, rest) := by
  cases h with
  | column c =>
      have hread : simple (c.pieces ++ rest) =
          (column (c.pieces ++ rest)).map fun read => (.column read.1, read.2) := rfl
      rw [hread, column_pieces]
      rfl
  | param i => rfl
  | number n => rfl

theorem scalar_complete {ls : List Lexeme} {a : Scalar} (h : IsScalar ls a) (rest : List Lexeme) :
    scalar (ls ++ rest) = some (a, rest) := by
  cases h with
  | simple hsimple =>
      rw [← simple_complete hsimple rest]
      cases hsimple with
      | column c => cases c <;> rfl
      | param i => rfl
      | number n => rfl
  | substr htext hfirst hlength =>
      simp [scalar, one, simple_complete htext, simple_complete hfirst, simple_complete hlength]

theorem collation_of_avoids {rest : List Lexeme} (h : Avoids "COLLATE" rest) :
    collation rest = (.binary, rest) := by
  unfold collation
  split
  · exact absurd rfl h
  · rfl

/-- A phrase that opens with a scalar opens like no other primary. -/
theorem primary_eq_test {inner : List Lexeme → Option (Parsed Condition)} {ls : List Lexeme}
    {a : Scalar} (h : IsScalar ls a) (rest : List Lexeme) :
    primary inner (ls ++ rest) = test (ls ++ rest) := by
  cases h with
  | simple hsimple =>
      cases hsimple with
      | column c => cases c <;> rfl
      | param i => rfl
      | number n => rfl
  | substr => rfl

variable {inner item : List Lexeme → Option (Parsed Condition)}
  {Item : List Lexeme → Condition → Prop} {Stops : List Lexeme → Prop} {n : Nat}

theorem subquery_complete (hstops : ∀ rest, Stops (.rparen :: rest))
    (hinner : Complete n Stops inner Disjunction) {ls : List Lexeme} {c : Condition}
    (hlength : ls.length < n) (h : Disjunction ls c) (rest : List Lexeme) :
    primary.subquery inner (searchStart.tail ++ (ls ++ .rparen :: rest)) = some (c, rest) := by
  have hread := hinner ls c (.rparen :: rest) hlength h (hstops rest)
  simp [primary.subquery, searchStart, one, words, hread]

theorem primary_complete (hstops : ∀ rest, Stops (.rparen :: rest))
    (hinner : Complete n Stops inner Disjunction) :
    Complete (n + 1) (Avoids "COLLATE") (primary inner) Primary := by
  intro ls c rest hlength h hrest
  cases h with
  | compare op hleft hright =>
      rw [List.append_assoc, primary_eq_test hleft]
      simp [test, scalar_complete hleft, scalar_complete hright, collation_of_avoids hrest]
  | nocase op hleft hright =>
      rw [List.append_assoc, primary_eq_test hleft]
      simp [test, scalar_complete hleft, scalar_complete hright, collation]
  | like escape hleft hright =>
      rw [List.append_assoc, primary_eq_test hleft]
      simp [test, scalar_complete hleft, scalar_complete hright]
  | @existsTag ls c hinside =>
      have hshort : ls.length < n := by
        simp only [List.length_append, List.length_cons, searchStart] at hlength
        omega
      have hread := subquery_complete hstops hinner hshort hinside rest
      simp only [searchStart, List.tail_cons, List.cons_append, List.nil_append] at hread
      simp [searchStart, primary, hread]
  | @noTag ls c hinside =>
      have hshort : ls.length < n := by
        simp only [List.length_append, List.length_cons, searchStart] at hlength
        omega
      have hread := subquery_complete hstops hinner hshort hinside rest
      simp only [searchStart, List.tail_cons, List.cons_append, List.nil_append] at hread
      simp [searchStart, primary, hread]
  | @group ls c hinside =>
      have hshort : ls.length < n := by
        simp only [List.length_append, List.length_cons] at hlength
        omega
      have hread := hinner ls c (.rparen :: rest) hshort hinside (hstops rest)
      simp [primary, hread, one]

variable {w : String} {join : Condition → Condition → Condition}

/-- A chain that has been read leaves the loop in front of what follows, with fuel to go on. -/
theorem chain_reaches (hstops : ∀ rest, Stops (.word w :: rest))
    (hitem : Complete n Stops item Item) {ls : List Lexeme} {c : Condition}
    (hchain : Chain w join Item ls c) {rest : List Lexeme} (hlength : ls.length < n)
    (hrest : Stops rest) :
    ∃ fuel, rest.length ≤ fuel ∧
      chain w join item (ls ++ rest) = chainFrom w join item fuel c rest := by
  induction hchain generalizing rest with
  | one hfirst =>
      refine ⟨rest.length, Nat.le_refl _, ?_⟩
      simp [chain, hitem _ _ _ hlength hfirst hrest]
  | @more ls ls' left right hleft hright ih =>
      simp only [List.length_append, List.length_cons] at hlength
      obtain ⟨fuel, hfuel, hread⟩ := @ih (.word w :: (ls' ++ rest)) (by omega) (hstops _)
      simp only [List.length_append, List.length_cons] at hfuel
      obtain ⟨fuel, rfl⟩ : ∃ m, fuel = m + 1 := ⟨fuel - 1, by omega⟩
      refine ⟨fuel, by omega, ?_⟩
      rw [List.append_assoc, List.cons_append, hread, chainFrom, if_pos rfl,
        hitem _ _ _ (by omega) hright hrest]
      rfl

theorem chain_complete (hstops : ∀ rest, Stops (.word w :: rest))
    (hitem : Complete n Stops item Item) :
    Complete n (fun rest => Stops rest ∧ Avoids w rest) (chain w join item)
      (Chain w join Item) := by
  intro ls c rest hlength hchain hrest
  obtain ⟨fuel, _, hread⟩ := chain_reaches hstops hitem hchain hlength hrest.1
  rw [hread]
  unfold chainFrom
  split
  · next v rest =>
    rw [if_neg fun hv => hrest.2 (by rw [hv]; rfl)]
  · rfl

/-- Behind a condition neither a collation nor a joining word may follow. -/
def Ends (rest : List Lexeme) : Prop :=
  (Avoids "COLLATE" rest ∧ Avoids "AND" rest) ∧ Avoids "OR" rest

/-- Every level of parentheses is two pieces, so a condition nests less deep than it is long. -/
theorem conditionWithin_complete (depth : Nat) :
    Complete depth Ends (conditionWithin depth) Disjunction := by
  induction depth with
  | zero => intro ls c rest hlength; omega
  | succ depth ih =>
      have hprimary := primary_complete (fun rest => by simp [Ends, Avoids]) ih
      have hconjunction : Complete (depth + 1) _ (chain "AND" .and _) Conjunction :=
        chain_complete (fun rest => by simp [Avoids]) hprimary
      exact chain_complete (fun rest => by simp [Avoids]) hconjunction

theorem condition_complete {ls : List Lexeme} {c : Condition} (h : Disjunction ls c)
    {rest : List Lexeme} (hrest : Ends rest) : condition (ls ++ rest) = some (c, rest) := by
  refine conditionWithin_complete _ ls c rest ?_ h hrest
  simp only [List.length_append]
  omega

end Read

end Slipbox.Sql
