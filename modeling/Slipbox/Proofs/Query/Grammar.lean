import Slipbox.Query.Parse

/-! The grammar of the query language over the kinds of tokens, without the end marker. `OR` binds
weaker than `AND` and both group to the left; the clauses behind a shape come in any order, each at
most once. What a reader of the parser uses up is related to this grammar by `Stream.Takes`. -/

namespace Slipbox.Query

namespace Grammar

/-- A token in the place of a value. -/
inductive Value : Kind → Literal → Prop
  | string (text : String) : Value (.string text) (.string text)
  | number (x : Float) (integer : Bool) : Value (.number x integer) (.number x)
  | boolean (b : Bool) : Value (.boolean b) (.boolean b)
  | word (name : String) : Value (.identifier name) (.string name)

/-- One or more items with the connective's keyword between them, grouped to the left. -/
inductive Chain (op : Connective) (Item : List Kind → Condition → Prop) :
    List Kind → Condition → Prop
  | one {ks : List Kind} {c : Condition} (hitem : Item ks c) : Chain op Item ks c
  | more {ks ks' : List Kind} {left right : Condition} (hleft : Chain op Item ks left)
      (hright : Item ks' right) :
      Chain op Item (ks ++ .keyword op.keyword :: ks') (.logical op left right)

/-- A condition that no connective joins. -/
inductive Primary : List Kind → Condition → Prop
  | group {ks : List Kind} {c : Condition} (hinner : Chain .or (Chain .and Primary) ks c) :
      Primary (.lparen :: (ks ++ [.rparen])) c
  | contains (name : String) {k : Kind} {value : Literal} (hvalue : Value k value) :
      Primary [.keyword .contains, .lparen, .identifier name, .comma, k, .rparen]
        (.contains name value)
  | compare (name : String) (op : CompareOp) {k : Kind} {value : Literal} (hvalue : Value k value) :
      Primary [.identifier name, .operator op, k] (.compare name op value)

/-- A condition: primaries joined by `AND`, joined by `OR`. -/
def Disjunction : List Kind → Condition → Prop :=
  Chain .or (Chain .and Primary)

/-- Names, each behind a comma. -/
inductive MoreNames : List Kind → List String → Prop
  | nil : MoreNames [] []
  | cons (name : String) {ks : List Kind} {names : List String} (hmore : MoreNames ks names) :
      MoreNames (.comma :: .identifier name :: ks) (name :: names)

/-- The field list behind a shape, which only a table may have. -/
inductive Fields : Shape → List Kind → Option (List String) → Prop
  | absent (shape : Shape) : Fields shape [] none
  | listed (first : String) {ks : List Kind} {names : List String} (hmore : MoreNames ks names) :
      Fields .table (.identifier first :: ks) (some (first :: names))

/-- A clause. A limit is a number without a point and at most `2^64`, and counts for the whole
number that it is cut off to. -/
inductive OneClause : List Kind → Clause → Prop
  | quoted (path : String) : OneClause [.keyword .from, .string path] (.source path)
  | named (path : String) : OneClause [.keyword .from, .identifier path] (.source path)
  | condition {ks : List Kind} {c : Condition} (hcondition : Disjunction ks c) :
      OneClause (.keyword .where :: ks) (.condition c)
  | order (name : String) :
      OneClause [.keyword .sort, .identifier name] (.order ⟨name, .ascending⟩)
  | directed (name : String) (d : Direction) :
      OneClause [.keyword .sort, .identifier name, .keyword d.keyword] (.order ⟨name, d⟩)
  | limit (x : Float) (hbound : x ≤ 18446744073709551616.0) :
      OneClause [.keyword .limit, .number x true] (.limit x.toUInt64.toNat)

inductive Clauses : List Kind → List Clause → Prop
  | nil : Clauses [] []
  | cons {ks ks' : List Kind} {c : Clause} {cs : List Clause} (hfirst : OneClause ks c)
      (hmore : Clauses ks' cs) : Clauses (ks ++ ks') (c :: cs)

/-- Whether a query has a clause in it. -/
def Carries (q : Query) : Clause → Prop
  | .source path => q.source = some path
  | .condition c => q.condition = some c
  | .order o => q.order = some o
  | .limit n => q.limit = some n

/-- The tokens of these kinds spell the query: its shape, then the fields of a table, then its
clauses, of which no two open with one keyword. -/
def Derives (ks : List Kind) (q : Query) : Prop :=
  ∃ (fieldKinds clauseKinds : List Kind) (cs : List Clause),
    ks = .keyword q.shape.keyword :: (fieldKinds ++ clauseKinds) ∧
    Fields q.shape fieldKinds q.fields ∧ Clauses clauseKinds cs ∧
    (cs.map Clause.keyword).Nodup ∧ ∀ c, Carries q c ↔ c ∈ cs

end Grammar

end Slipbox.Query
