import Mathlib.Algebra.Group.Nat.Defs
import Slipbox.Query.Scan
import Slipbox.Query.Tree

/-! Queries as text. A query is printed as words, its clauses in any order, and the words are laid
out with white space between them. Strings stand in quotes, numbers in plain digits, and both sides
of a connective in parentheses. -/

namespace Slipbox.Query

abbrev Word := List Char

/-- A quote or a backslash stands behind a backslash. -/
def escape (c : Char) : List Char :=
  if c = '"' ∨ c = '\\' then ['\\', c] else [c]

def quote (text : String) : Word :=
  '"' :: (text.toList.flatMap escape ++ ['"'])

def Keyword.letters (k : Keyword) : Word :=
  k.word.toList

def Literal.word : Literal → Word
  | .string text => quote text
  | .number x => (Decimal.plain x).toList
  | .boolean b => (toString b).toList

def Condition.words : Condition → List Word
  | .compare field op value => [field.toList, op.symbol.toList, value.word]
  | .contains field value =>
    [Keyword.contains.letters, ['('], field.toList, [','], value.word, [')']]
  | .logical op left right =>
    ['('] :: (left.words ++ [')'] :: op.keyword.letters :: ['('] :: (right.words ++ [[')']]))

def Clause.words : Clause → List Word
  | .source path => [Keyword.from.letters, quote path]
  | .condition c => Keyword.where.letters :: c.words
  | .order o => [Keyword.sort.letters, o.field.toList, o.direction.keyword.letters]
  | .limit n => [Keyword.limit.letters, Decimal.digitChars n]

/-- Names with commas between them. -/
def fieldWords : List String → List Word
  | [] => []
  | name :: names => name.toList :: names.flatMap fun name => [[','], name.toList]

/-- The clauses that the query has. -/
def clauses (q : Query) : List Clause :=
  q.source.toList.map .source ++ q.condition.toList.map .condition ++ q.order.toList.map .order ++
    q.limit.toList.map .limit

/-- The words of the query, its clauses in the given order. -/
def words (q : Query) (cs : List Clause) : List Word :=
  q.shape.keyword.letters :: (fieldWords (q.fields.getD []) ++ cs.flatMap Clause.words)

/-- White space or a mark, which end every word. -/
def endsWord (c : Char) : Bool :=
  Text.isBlank c || c == '(' || c == ')' || c == ','

/-- The word may stand in front of the text: a mark always, any other word only if the text ends
it. -/
def Parted (w : Word) (rest : List Char) : Prop :=
  w = ['('] ∨ w = [')'] ∨ w = [','] ∨ ∀ c ∈ rest.head?, endsWord c = true

/-- The text is made up of the words with white space around them. -/
inductive Layout : List Word → List Char → Prop
  | done {gap : List Char} (hgap : ∀ c ∈ gap, Text.isBlank c = true) : Layout [] gap
  | word {gap w text : List Char} {ws : List Word} (hgap : ∀ c ∈ gap, Text.isBlank c = true)
      (hparted : Parted w text) (hmore : Layout ws text) : Layout (w :: ws) (gap ++ (w ++ text))

/-- No space stands inside of parentheses, before a comma or behind `CONTAINS`. -/
def gap (w next : Word) : List Char :=
  if w = ['('] ∨ next = [')'] ∨ next = [','] ∨ w = Keyword.contains.letters ∧ next = ['('] then []
  else [' ']

/-- The words with the usual spaces between them. -/
def spaced : List Word → List Char
  | [] => []
  | [w] => w
  | w :: next :: ws => w ++ (gap w next ++ spaced (next :: ws))

/-- The query as text, its clauses in the given order. -/
def print (q : Query) (cs : List Clause) : String :=
  String.ofList (spaced (q.words cs))

/-- A name that is scanned as such: neither a keyword nor a truth value in any letter case. -/
structure IsName (name : String) : Prop where
  start : name.toList.head?.any Lexeme.isWordStart = true
  chars : name.toList.all Lexeme.isWordChar = true
  notKeyword : ∀ k : Keyword, name.toList.map Char.toUpper ≠ k.letters
  notTruth : ∀ b : Bool, name.toList.map Char.toLower ≠ (toString b).toList

theorem Keyword.mem_all (k : Keyword) : k ∈ Keyword.all := by
  cases k <;> decide

instance (name : String) : Decidable (IsName name) :=
  decidable_of_iff
    (name.toList.head?.any Lexeme.isWordStart = true ∧
      name.toList.all Lexeme.isWordChar = true ∧
      (∀ k ∈ Keyword.all, name.toList.map Char.toUpper ≠ k.letters) ∧
      ∀ b : Bool, name.toList.map Char.toLower ≠ (toString b).toList)
    ⟨fun ⟨hstart, hchars, hkeyword, htruth⟩ =>
        ⟨hstart, hchars, fun k => hkeyword k k.mem_all, htruth⟩,
      fun h => ⟨h.start, h.chars, fun k _ => h.notKeyword k, h.notTruth⟩⟩

/-- A value that can be written: a number has no sign and is finite. -/
def Literal.Expressible : Literal → Prop
  | .number x => ∃ b, Decimal.classify x = .finite false b
  | _ => True

def Condition.Expressible : Condition → Prop
  | .compare field _ value => IsName field ∧ value.Expressible
  | .contains field value => IsName field ∧ value.Expressible
  | .logical _ left right => left.Expressible ∧ right.Expressible

/-- A query that the language has a text for. -/
structure Expressible (q : Query) : Prop where
  fields : ∀ names, q.fields = some names →
    q.shape = .table ∧ names ≠ [] ∧ ∀ name ∈ names, IsName name
  condition : ∀ c, q.condition = some c → c.Expressible
  order : ∀ o, q.order = some o → IsName o.field
  limit : ∀ n, q.limit = some n → n ≤ 2 ^ 53

/-! The usual spaces are a layout. -/

theorem Layout.blank {ws : List Word} {text : List Char} (h : Layout ws text) :
    Layout ws (' ' :: text) := by
  cases h with
  | done hgap => exact .done (List.forall_mem_cons.mpr ⟨rfl, hgap⟩)
  | @word gap w text ws hgap hparted hmore =>
      have hgap' : ∀ c ∈ ' ' :: gap, Text.isBlank c = true :=
        List.forall_mem_cons.mpr ⟨rfl, hgap⟩
      exact .word hgap' hparted hmore

theorem Layout.gap {ws : List Word} {text : List Char} (h : Layout ws text) (w next : Word) :
    Layout ws (Query.gap w next ++ text) := by
  unfold Query.gap
  split
  · exact h
  · exact h.blank

/-- No space is left out that a word needs. -/
theorem parted_gap (w next : Word) (ws : List Word) :
    Parted w (gap w next ++ spaced (next :: ws)) := by
  have hhead {c : Char} (hnext : next = [c]) : (spaced (next :: ws)).head? = some c := by
    rw [hnext]
    cases ws <;> rfl
  have hends {c : Char} (hnext : next = [c]) (hc : endsWord c = true) :
      ∀ d ∈ (spaced (next :: ws)).head?, endsWord d = true := by
    rw [hhead hnext]
    rintro d ⟨⟩
    exact hc
  unfold gap
  split
  · next hnone =>
    rw [List.nil_append]
    rcases hnone with hopen | hclose | hcomma | ⟨-, hopen⟩
    · exact Or.inl hopen
    · exact Or.inr (Or.inr (Or.inr (hends hclose rfl)))
    · exact Or.inr (Or.inr (Or.inr (hends hcomma rfl)))
    · exact Or.inr (Or.inr (Or.inr (hends hopen rfl)))
  · refine Or.inr (Or.inr (Or.inr ?_))
    rintro d ⟨⟩
    rfl

theorem layout_spaced (ws : List Word) : Layout ws (spaced ws) := by
  induction ws with
  | nil => exact .done (List.forall_mem_nil _)
  | cons w ws ih =>
      cases ws with
      | nil =>
          have hword : Layout [w] ([] ++ (w ++ [])) :=
            .word (List.forall_mem_nil _) (Or.inr (Or.inr (Or.inr (by simp))))
              (.done (List.forall_mem_nil _))
          rwa [List.nil_append, List.append_nil] at hword
      | cons next ws =>
          have hword : Layout (w :: next :: ws) ([] ++ spaced (w :: next :: ws)) :=
            .word (List.forall_mem_nil _) (parted_gap w next ws) (ih.gap w next)
          rwa [List.nil_append] at hword

end Slipbox.Query
