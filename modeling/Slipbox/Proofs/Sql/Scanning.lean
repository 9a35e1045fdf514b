import Slipbox.Proofs.Sql.Grammar

/-! How the text of a statement falls apart into pieces. A text that ends in a mark or a space is
scanned on its own, whatever stands behind it, so the pieces of a text put together from such parts
are the pieces of its parts. -/

namespace Slipbox.Sql

open Lexeme

/-- The text spells the pieces, whatever stands behind it; `k` placeholders stand before the text
and `k'` before what is behind it. -/
def Spells (k : Nat) (text : String) (k' : Nat) (ls : List Lexeme) : Prop :=
  ∀ rest, scan k (text.toList ++ rest) = (scan k' rest).map (ls ++ ·)

theorem Spells.append {k k' k'' : Nat} {text text' : String} {ls ls' : List Lexeme}
    (h : Spells k text k' ls) (h' : Spells k' text' k'' ls') :
    Spells k (text ++ text') k'' (ls ++ ls') := by
  intro rest
  rw [String.toList_append, List.append_assoc, h, h', Option.map_map]
  congr 1
  funext more
  simp

theorem Spells.scan_eq {k k' : Nat} {text : String} {ls : List Lexeme} (h : Spells k text k' ls) :
    scan k text.toList = some ls := by
  have hscan := h []
  simpa [scan] using hscan

theorem spells_lparen (k : Nat) : Spells k "(" k [.lparen] := by
  intro rest
  simp [scan]

theorem spells_rparen (k : Nat) : Spells k ")" k [.rparen] := by
  intro rest
  simp [scan]

theorem spells_param (k : Nat) : Spells k "?" (k + 1) [.param k] := by
  intro rest
  simp [scan]

theorem spells_and (k : Nat) : Spells k " AND " k [.word "AND"] := by
  intro rest
  simp [scan, isWordStart, isWordChar, List.dropWhile, List.takeWhile]

theorem spells_or (k : Nat) : Spells k " OR " k [.word "OR"] := by
  intro rest
  simp [scan, isWordStart, isWordChar, List.dropWhile, List.takeWhile]

namespace Column

/-- The column behind the name of its table. -/
def text (c : Column) : String :=
  c.spelling.1 ++ "." ++ c.spelling.2

/-- A blank or a comma behind a column ends its name. -/
theorem spells (c : Column) (k : Nat) :
    Spells k (c.text ++ " ") k c.pieces ∧ Spells k (c.text ++ ", ") k (c.pieces ++ [.comma]) := by
  constructor <;> intro rest <;> cases c <;>
    simp [text, pieces, spelling, scan, isWordStart, isWordChar, List.dropWhile, List.takeWhile,
      Function.comp_def]

/-- The columns behind commas. -/
def more : List Column → List Lexeme
  | [] => []
  | c :: cs => .comma :: (c.pieces ++ more cs)

theorem spells_intercalate (k : Nat) (c : Column) (cs : List Column) :
    Spells k (", ".intercalate ((c :: cs).map text) ++ " ") k (c.pieces ++ more cs) := by
  induction cs generalizing c with
  | nil => simpa [more] using (spells c k).1
  | cons c' cs ih =>
      have htext : ", ".intercalate ((c :: c' :: cs).map text) ++ " " =
          c.text ++ ", " ++ (", ".intercalate ((c' :: cs).map text) ++ " ") := by
        simp [String.intercalate_cons_cons, String.append_assoc]
      rw [htext]
      have hspells := (spells c k).2.append (ih c')
      simpa [more] using hspells

end Column

end Slipbox.Sql
