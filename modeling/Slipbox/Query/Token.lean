import Slipbox.Decimal.Layout

/-! The words of the query language: keywords, comparison operators and tokens, with the description
of a token that error messages use. -/

namespace Slipbox.Query

inductive Keyword where
  | table | list | task
  | from | where | sort | limit
  | and | or
  | asc | desc
  | contains
  deriving DecidableEq, Repr

namespace Keyword

def all : List Keyword :=
  [.table, .list, .task, .from, .where, .sort, .limit, .and, .or, .asc, .desc, .contains]

/-- The upper-case spelling, which is the one that messages show. -/
def word : Keyword → String
  | .table => "TABLE"
  | .list => "LIST"
  | .task => "TASK"
  | .from => "FROM"
  | .where => "WHERE"
  | .sort => "SORT"
  | .limit => "LIMIT"
  | .and => "AND"
  | .or => "OR"
  | .asc => "ASC"
  | .desc => "DESC"
  | .contains => "CONTAINS"

/-- The keyword that a word spells in any letter case. -/
def ofWord? (w : List Char) : Option Keyword :=
  all.find? fun k => k.word.toList == w.map Char.toUpper

/-- Keywords that open a clause after the query's shape. -/
def isClause : Keyword → Bool
  | .from | .where | .sort | .limit => true
  | _ => false

end Keyword

inductive CompareOp where
  | eq | ne | gt | lt | ge | le
  deriving DecidableEq, Repr

namespace CompareOp

def all : List CompareOp := [.eq, .ne, .gt, .lt, .ge, .le]

def symbol : CompareOp → String
  | .eq => "="
  | .ne => "!="
  | .gt => ">"
  | .lt => "<"
  | .ge => ">="
  | .le => "<="

def ofSymbol? (s : String) : Option CompareOp :=
  all.find? fun op => op.symbol == s

end CompareOp

/-- `integer` is false when the literal has a decimal point. -/
inductive Kind where
  | keyword (k : Keyword)
  | identifier (name : String)
  | string (text : String)
  | number (value : Float) (integer : Bool)
  | boolean (b : Bool)
  | operator (op : CompareOp)
  | lparen
  | rparen
  | comma
  | eof

namespace Kind

def isEof : Kind → Bool
  | .eof => true
  | _ => false

/-- What a message calls the token. -/
def describe : Kind → String
  | .keyword k => s!"keyword {k.word}"
  | .identifier name => s!"identifier '{name}'"
  | .string text => s!"string \"{text}\""
  | .number value _ => s!"number {Decimal.plain value}"
  | .boolean b => s!"boolean {b}"
  | .operator op => s!"operator '{op.symbol}'"
  | .lparen => "'('"
  | .rparen => "')'"
  | .comma => "','"
  | .eof => "end of input"

end Kind

/-- A token and the byte offset at which it starts. -/
structure Token where
  kind : Kind
  position : Nat

end Slipbox.Query
