import Slipbox.Query.Token

/-! Parsed queries. An absent clause stays absent here; its default is applied when the query runs.
-/

namespace Slipbox.Query

/-- What a query asks for, which also decides how its result is written. -/
inductive Shape where
  | table | list | task
  deriving DecidableEq, Repr

namespace Shape

def keyword : Shape → Keyword
  | .table => .table
  | .list => .list
  | .task => .task

def word (s : Shape) : String :=
  s.keyword.word

def ofKeyword? : Keyword → Option Shape
  | .table => some .table
  | .list => some .list
  | .task => some .task
  | _ => none

end Shape

/-- A value written in a query. A bare word in the place of a value is a string. -/
inductive Literal where
  | string (s : String)
  | number (x : Float)
  | boolean (b : Bool)

/-- The literal as bare text. -/
def Literal.text : Literal → String
  | .string s => s
  | .number x => Decimal.plain x
  | .boolean b => toString b

inductive Connective where
  | and | or
  deriving DecidableEq, Repr

def Connective.keyword : Connective → Keyword
  | .and => .and
  | .or => .or

def Connective.word (c : Connective) : String :=
  c.keyword.word

inductive Condition where
  | compare (field : String) (op : CompareOp) (value : Literal)
  | contains (field : String) (value : Literal)
  | logical (op : Connective) (left right : Condition)

inductive Direction where
  | ascending | descending
  deriving DecidableEq, Repr

def Direction.keyword : Direction → Keyword
  | .ascending => .asc
  | .descending => .desc

def Direction.word (d : Direction) : String :=
  d.keyword.word

structure Order where
  field : String
  direction : Direction
  deriving DecidableEq, Repr

/-- What a clause of a query says. -/
inductive Clause where
  | source (path : String)
  | condition (c : Condition)
  | order (o : Order)
  | limit (n : Nat)

def Clause.keyword : Clause → Keyword
  | .source _ => .from
  | .condition _ => .where
  | .order _ => .sort
  | .limit _ => .limit

end Slipbox.Query

namespace Slipbox

/-- A query: its shape and the clauses it has. -/
structure Query where
  shape : Query.Shape
  fields : Option (List String)
  source : Option String
  condition : Option Query.Condition
  order : Option Query.Order
  limit : Option Nat

namespace Query

/-- The query without clauses. -/
def bare (shape : Shape) : Query :=
  ⟨shape, none, none, none, none, none⟩

/-- Whether the query has the clause that the keyword opens. -/
def has (q : Query) : Keyword → Bool
  | .from => q.source.isSome
  | .where => q.condition.isSome
  | .sort => q.order.isSome
  | .limit => q.limit.isSome
  | _ => false

/-- The query with a clause in it. -/
def add (q : Query) : Clause → Query
  | .source path => { q with source := some path }
  | .condition c => { q with condition := some c }
  | .order o => { q with order := some o }
  | .limit n => { q with limit := some n }

end Query

end Slipbox
