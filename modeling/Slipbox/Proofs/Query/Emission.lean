import Slipbox.Proofs.Except
import Slipbox.Proofs.Sql.Reading
import Slipbox.Proofs.Sql.Scanning
import Slipbox.Query.Translate

/-! What the text of a translated condition spells. `Emits` says once what a translation can be: the
fragment of each kind of condition, and the SQL condition that it stands for when a number of
placeholders stand before it. The text is then scanned and read back to that condition. -/

namespace Slipbox

/-- The column that stores a field. -/
def Field.column : Field → Option Sql.Column
  | .path => some .path
  | .title => some .title
  | .type => some .type
  | .created => some .created
  | .modified => some .modified
  | .source => some .source
  | .confidence => some .confidence
  | .verified => some .verified
  | .content => some .content
  | .tags => none

theorem Field.isColumn_eq (f : Field) : f.isColumn = f.column.isSome := by
  cases f <;> rfl

theorem Field.column_eq_none {f : Field} : f.column = none ↔ f = .tags := by
  cases f <;> simp [Field.column]

theorem Field.ne_tags {f : Field} {c : Sql.Column} (h : f.column = some c) : f ≠ .tags := by
  rintro rfl
  cases h

theorem Field.text_of_column {f : Field} {c : Sql.Column} (h : f.column = some c) :
    s!"n.{f.name}" = c.text := by
  cases f <;> cases h <;> rfl

namespace Sql

/-- The search for a tag of the note whose text is the value of the placeholder. -/
def tagSearch (k : Nat) : Condition :=
  .existsTag (.and (.compare .eq (.column .tagNote) (.column .id) .binary)
    (.compare .eq (.column .tag) (.param k) .nocase))

/-- What two conditions stand for when the text of the right one follows an `AND` without
parentheses. -/
def Condition.andThen (left : Condition) : Condition → Condition
  | .and a b => .and (.and left a) b
  | .or a b => .or (.and left a) b
  | c => .and left c

end Sql

namespace Query

open Sql (Spells Lexeme)
open Sql.Grammar

def CompareOp.comparison : CompareOp → Sql.Comparison
  | .eq => .eq
  | .ne => .ne
  | .gt => .gt
  | .lt => .lt
  | .ge => .ge
  | .le => .le

def Connective.join : Connective → Sql.Condition → Sql.Condition → Sql.Condition
  | .and => .and
  | .or => .or

/-- The fragment of a condition, and what its text stands for behind a number of placeholders. -/
inductive Emits : Condition → Fragment → (Nat → Sql.Condition) → Prop
  | compare {name : String} {f : Field} {c : Sql.Column} (op : CompareOp) (value : Literal)
      (hname : Field.ofName? name = some f) (hcolumn : f.column = some c) :
      Emits (.compare name op value) ⟨s!"n.{f.name} {op.symbol} ?", [comparedValue f value]⟩
        fun k => .compare op.comparison (.column c) (.param k) .binary
  | tag {name : String} (value : Literal) (hname : Field.ofName? name = some .tags) :
      Emits (.compare name .eq value) (tagTest false value) Sql.tagSearch
  | noTag {name : String} (value : Literal) (hname : Field.ofName? name = some .tags) :
      Emits (.compare name .ne value) (tagTest true value) fun k => .not (Sql.tagSearch k)
  | contains {name : String} {f : Field} {c : Sql.Column} (value : Literal)
      (hname : Field.ofName? name = some f) (hcolumn : f.column = some c) :
      Emits (.contains name value) ⟨s!"n.{f.name} LIKE ? ESCAPE '\\'",
        [.text ("%" ++ escapePattern value.text ++ "%")]⟩ fun k => .like (.column c) (.param k) '\\'
  | containsTag {name : String} (value : Literal) (hname : Field.ofName? name = some .tags) :
      Emits (.contains name value) (tagTest false value) Sql.tagSearch
  | logical {left right : Condition} {l r : Fragment} {l' r' : Nat → Sql.Condition}
      (op : Connective) (hleft : Emits left l l') (hright : Emits right r r') :
      Emits (.logical op left right) ⟨s!"({l.sql}) {op.word} ({r.sql})", l.params ++ r.params⟩
        fun k => op.join (l' k) (r' (k + l.params.length))

theorem field_eq_ok {name : String} {f : Field} :
    field name = .ok f ↔ Field.ofName? name = some f := by
  unfold field
  split <;> simp_all

theorem emits_of_translate {w : Condition} {f : Fragment} (h : w.translate = .ok f) :
    ∃ tree, Emits w f tree := by
  induction w generalizing f with
  | compare name op value =>
      obtain ⟨g, hfield, h⟩ := bind_eq_ok.mp h
      rw [field_eq_ok] at hfield
      cases hcolumn : g.column with
      | some c =>
          rw [if_pos (by rw [Field.isColumn_eq, hcolumn]; rfl)] at h
          cases h
          exact ⟨_, .compare op value hfield hcolumn⟩
      | none =>
          rw [if_neg (by simp [Field.isColumn_eq, hcolumn])] at h
          obtain rfl := Field.column_eq_none.mp hcolumn
          cases op <;> cases h
          · exact ⟨_, .tag value hfield⟩
          · exact ⟨_, .noTag value hfield⟩
  | contains name value =>
      obtain ⟨g, hfield, h⟩ := bind_eq_ok.mp h
      rw [field_eq_ok] at hfield
      cases hcolumn : g.column with
      | some c =>
          rw [if_pos (by rw [Field.isColumn_eq, hcolumn]; rfl)] at h
          cases h
          exact ⟨_, .contains value hfield hcolumn⟩
      | none =>
          rw [if_neg (by simp [Field.isColumn_eq, hcolumn])] at h
          cases h
          obtain rfl := Field.column_eq_none.mp hcolumn
          exact ⟨_, .containsTag value hfield⟩
  | logical op left right ihleft ihright =>
      obtain ⟨l, hleft, h⟩ := bind_eq_ok.mp h
      obtain ⟨r, hright, h⟩ := bind_eq_ok.mp h
      cases h
      obtain ⟨l', hl⟩ := ihleft hleft
      obtain ⟨r', hr⟩ := ihright hright
      exact ⟨_, .logical op hl hr⟩

theorem spells_symbol (op : CompareOp) (k : Nat) :
    Spells k (op.symbol ++ " ") k [.comparison op.comparison] := by
  intro rest
  cases op <;> simp [CompareOp.symbol, CompareOp.comparison, Lexeme.scan]

theorem spells_connective (op : Connective) (k : Nat) :
    Spells k (" " ++ op.word ++ " ") k [.word op.word] := by
  cases op with
  | and => exact Sql.spells_and k
  | or => exact Sql.spells_or k

theorem spells_like (k : Nat) : Spells k "LIKE ? ESCAPE '\\'" (k + 1)
    [.word "LIKE", .param k, .word "ESCAPE", .string (String.singleton '\\')] := by
  intro rest
  simp [Lexeme.scan, Lexeme.isWordStart, Lexeme.isWordChar, List.dropWhile, List.takeWhile,
    Function.comp_def]

/-- The condition within the search for a tag. -/
def tagPieces (k : Nat) : List Lexeme :=
  (Sql.Column.tagNote.pieces ++ .comparison .eq :: Sql.Column.id.pieces) ++ .word "AND" ::
    (Sql.Column.tag.pieces ++ .comparison .eq ::
      ([.param k] ++ [.word "COLLATE", .word "NOCASE"]))

theorem tagPieces_primary (k : Nat) :
    Primary (searchStart ++ (tagPieces k ++ [.rparen])) (Sql.tagSearch k) ∧
      Primary (.word "NOT" :: (searchStart ++ (tagPieces k ++ [.rparen])))
        (.not (Sql.tagSearch k)) := by
  have howner := Primary.compare .eq (.simple (.column .tagNote)) (.simple (.column .id))
  have htext := Primary.nocase .eq (.simple (.column .tag)) (.simple (.param k))
  have hinner : Disjunction (tagPieces k) _ := .one (.more (.one howner) htext)
  exact ⟨.existsTag hinner, .noTag hinner⟩

theorem spells_tagTest (k : Nat) (value : Literal) :
    Spells k (tagTest false value).sql (k + 1) (searchStart ++ (tagPieces k ++ [.rparen])) ∧
      Spells k (tagTest true value).sql (k + 1)
        (.word "NOT" :: (searchStart ++ (tagPieces k ++ [.rparen]))) := by
  constructor <;> intro rest <;>
    simp [tagTest, searchStart, tagPieces, Sql.Column.pieces, Sql.Column.spelling, Lexeme.scan,
      Lexeme.isWordStart, Lexeme.isWordChar, List.dropWhile, List.takeWhile, Function.comp_def,
      Decimal.digitsValue]

/-- The pieces form a condition, also where they follow an `AND`. -/
def Stands (ls : List Lexeme) (c : Sql.Condition) : Prop :=
  Disjunction ls c ∧ ∀ ls' c', Conjunction ls' c' →
    Disjunction (ls' ++ .word "AND" :: ls) (c'.andThen c)

theorem Stands.of_primary {ls : List Lexeme} {c : Sql.Condition} (h : Primary ls c)
    (hjoin : ∀ c' : Sql.Condition, c'.andThen c = .and c' c) : Stands ls c := by
  refine ⟨.one (.one h), fun ls' c' hbefore => ?_⟩
  rw [hjoin]
  exact .one (.more hbefore h)

theorem Stands.join {ls ls' : List Lexeme} {c c' : Sql.Condition} (op : Connective)
    (h : Stands ls c) (h' : Stands ls' c') :
    Stands (.lparen :: (ls ++ [.rparen]) ++ .word op.word :: .lparen :: (ls' ++ [.rparen]))
      (op.join c c') := by
  have hleft := Primary.group h.1
  have hright := Primary.group h'.1
  cases op with
  | and =>
      refine ⟨.one (.more (.one hleft) hright), fun before b hbefore => ?_⟩
      have hchain : Conjunction _ _ := .more (.more hbefore hleft) hright
      have hall : Disjunction _ _ := .one hchain
      simpa [Connective.join, Sql.Condition.andThen, Connective.word, Connective.keyword,
        Keyword.word] using hall
  | or =>
      refine ⟨.more (.one (.one hleft)) (.one hright), fun before b hbefore => ?_⟩
      have hchain : Conjunction _ _ := .more hbefore hleft
      have hall : Disjunction _ _ := .more (.one hchain) (.one hright)
      simpa [Connective.join, Sql.Condition.andThen, Connective.word, Connective.keyword,
        Keyword.word] using hall

/-- The text of a fragment is scanned to pieces that stand for the condition, and it has one
placeholder for each value. -/
theorem Emits.spells {w : Condition} {f : Fragment} {tree : Nat → Sql.Condition}
    (h : Emits w f tree) (k : Nat) :
    ∃ ls, Spells k f.sql (k + f.params.length) ls ∧ Stands ls (tree k) := by
  induction h generalizing k with
  | @compare name f c op value hname hcolumn =>
      have htext : s!"n.{f.name} {op.symbol} ?" = c.text ++ " " ++ (op.symbol ++ " " ++ "?") := by
        rw [← Field.text_of_column hcolumn]
        exact String.toList_inj.mp (by simp [toString])
      have hspells := (c.spells k).1.append ((spells_symbol op k).append (Sql.spells_param k))
      have hprimary := Primary.compare op.comparison (.simple (.column c)) (.simple (.param k))
      exact ⟨_, htext ▸ hspells, .of_primary hprimary fun _ => rfl⟩
  | tag value =>
      exact ⟨_, (spells_tagTest k value).1, .of_primary (tagPieces_primary k).1 fun _ => rfl⟩
  | noTag value =>
      exact ⟨_, (spells_tagTest k value).2, .of_primary (tagPieces_primary k).2 fun _ => rfl⟩
  | @contains name f c value hname hcolumn =>
      have htext : s!"n.{f.name} LIKE ? ESCAPE '\\'" = c.text ++ " " ++ "LIKE ? ESCAPE '\\'" := by
        rw [← Field.text_of_column hcolumn]
        exact String.toList_inj.mp (by simp [toString])
      have hspells := (c.spells k).1.append (spells_like k)
      have hprimary := Primary.like '\\' (.simple (.column c)) (.simple (.param k))
      exact ⟨_, htext ▸ hspells, .of_primary hprimary fun _ => rfl⟩
  | containsTag value =>
      exact ⟨_, (spells_tagTest k value).1, .of_primary (tagPieces_primary k).1 fun _ => rfl⟩
  | @logical left right l r l' r' op _ _ ihleft ihright =>
      obtain ⟨ls, hl, hleft⟩ := ihleft k
      obtain ⟨ls', hr, hright⟩ := ihright (k + l.params.length)
      have htext : s!"({l.sql}) {op.word} ({r.sql})" =
          "(" ++ (l.sql ++ ")") ++ (" " ++ op.word ++ " " ++ ("(" ++ (r.sql ++ ")"))) :=
        String.toList_inj.mp (by simp [toString])
      have hopen := (Sql.spells_lparen _).append (hl.append (Sql.spells_rparen _))
      have hclose := (Sql.spells_lparen _).append (hr.append (Sql.spells_rparen _))
      have hspells := hopen.append ((spells_connective op _).append hclose)
      refine ⟨_, ?_, hleft.join op hright⟩
      simpa [htext, Nat.add_assoc] using hspells

end Query

end Slipbox
