import Slipbox.Sql.Statement

/-! The grammar of the conditions in a statement, over the pieces of its text: a primary is a test,
a search through the tags or a condition in parentheses, `AND` joins primaries, `OR` joins what
`AND` has joined, and both group to the left. The reader of conditions reads every phrase of it. -/

namespace Slipbox.Sql

/-- A column in a statement, behind its table. -/
def Column.pieces (c : Column) : List Lexeme :=
  [.word c.spelling.1, .dot, .word c.spelling.2]

namespace Grammar

/-- A scalar without a function call. -/
inductive Simple : List Lexeme → Scalar → Prop
  | column (c : Column) : Simple c.pieces (.column c)
  | param (i : Nat) : Simple [.param i] (.param i)
  | number (n : Nat) : Simple [.number n] (.integer n)

inductive IsScalar : List Lexeme → Scalar → Prop
  | simple {ls : List Lexeme} {a : Scalar} (hsimple : Simple ls a) : IsScalar ls a
  | substr {ls ls' ls'' : List Lexeme} {text first length : Scalar} (htext : Simple ls text)
      (hfirst : Simple ls' first) (hlength : Simple ls'' length) :
      IsScalar (.word "substr" :: .lparen ::
        (ls ++ .comma :: (ls' ++ .comma :: (ls'' ++ [.rparen])))) (.substr text first length)

/-- One or more items with the word between them, grouped to the left. -/
inductive Chain (w : String) (join : Condition → Condition → Condition)
    (Item : List Lexeme → Condition → Prop) : List Lexeme → Condition → Prop
  | one {ls : List Lexeme} {c : Condition} (hitem : Item ls c) : Chain w join Item ls c
  | more {ls ls' : List Lexeme} {left right : Condition} (hleft : Chain w join Item ls left)
      (hright : Item ls' right) : Chain w join Item (ls ++ .word w :: ls') (join left right)

/-- What stands before the condition of a search through the tags. -/
def searchStart : List Lexeme :=
  [.word "EXISTS", .lparen, .word "SELECT", .number 1, .word "FROM", .word "note_tags", .word "t",
    .word "WHERE"]

/-- A condition that no `AND` or `OR` joins. -/
inductive Primary : List Lexeme → Condition → Prop
  | compare {ls ls' : List Lexeme} {a b : Scalar} (op : Comparison) (hleft : IsScalar ls a)
      (hright : IsScalar ls' b) :
      Primary (ls ++ .comparison op :: ls') (.compare op a b .binary)
  | nocase {ls ls' : List Lexeme} {a b : Scalar} (op : Comparison) (hleft : IsScalar ls a)
      (hright : IsScalar ls' b) :
      Primary (ls ++ .comparison op :: (ls' ++ [.word "COLLATE", .word "NOCASE"]))
        (.compare op a b .nocase)
  | like {ls ls' : List Lexeme} {a b : Scalar} (escape : Char) (hleft : IsScalar ls a)
      (hright : IsScalar ls' b) :
      Primary (ls ++ .word "LIKE" :: (ls' ++ [.word "ESCAPE", .string (String.singleton escape)]))
        (.like a b escape)
  | existsTag {ls : List Lexeme} {c : Condition}
      (hinner : Chain "OR" .or (Chain "AND" .and Primary) ls c) :
      Primary (searchStart ++ (ls ++ [.rparen])) (.existsTag c)
  | noTag {ls : List Lexeme} {c : Condition}
      (hinner : Chain "OR" .or (Chain "AND" .and Primary) ls c) :
      Primary (.word "NOT" :: (searchStart ++ (ls ++ [.rparen]))) (.not (.existsTag c))
  | group {ls : List Lexeme} {c : Condition}
      (hinner : Chain "OR" .or (Chain "AND" .and Primary) ls c) :
      Primary (.lparen :: (ls ++ [.rparen])) c

/-- Primaries joined by `AND`. -/
def Conjunction : List Lexeme → Condition → Prop :=
  Chain "AND" .and Primary

/-- A condition: primaries joined by `AND`, joined by `OR`. -/
def Disjunction : List Lexeme → Condition → Prop :=
  Chain "OR" .or Conjunction

end Grammar

end Slipbox.Sql
