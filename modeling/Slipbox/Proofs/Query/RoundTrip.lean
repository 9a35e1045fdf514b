import Slipbox.Proofs.Decimal.Whole
import Slipbox.Proofs.Query.Scanned

/-! Parsing a printed query gives back the query. Its words spell tokens from which the grammar
derives it. -/

namespace Slipbox.Query

open Grammar

/-- The words spell tokens of these kinds, one each. -/
abbrev SpellsAll (ws : List Word) (ks : List Kind) : Prop :=
  List.Forall₂ Spells ws ks

theorem SpellsAll.append {ws ws' : List Word} {ks ks' : List Kind} (h : SpellsAll ws ks)
    (h' : SpellsAll ws' ks') : SpellsAll (ws ++ ws') (ks ++ ks') := by
  induction h with
  | nil => exact h'
  | cons hword _ ih => exact .cons hword ih

theorem Literal.Expressible.spells {value : Literal} (h : value.Expressible) :
    ∃ k, Spells value.word k ∧ Value k value := by
  cases value with
  | string text => exact ⟨_, spells_quote text, .string text⟩
  | number x =>
      obtain ⟨b, hb⟩ := h
      obtain ⟨n, hplain, hchars, rfl⟩ := Decimal.plain_numeral hb
      refine ⟨_, ?_, .number n.value n.fraction.isEmpty⟩
      show Spells (Decimal.plain n.value).toList _
      rw [hchars]
      exact spells_number hplain
  | boolean b => exact ⟨_, spells_boolean b, .boolean b⟩

/-- Two conditions in parentheses with a connective between them. -/
theorem disjunction_logical {op : Connective} {ks ks' : List Kind} {left right : Condition}
    (hleft : Disjunction ks left) (hright : Disjunction ks' right) :
    Disjunction ((.lparen :: (ks ++ [.rparen])) ++
      .keyword op.keyword :: (.lparen :: (ks' ++ [.rparen]))) (.logical op left right) := by
  have hleft' : Primary (.lparen :: (ks ++ [.rparen])) left := .group hleft
  have hright' : Primary (.lparen :: (ks' ++ [.rparen])) right := .group hright
  cases op with
  | and => exact .one (.more (.one hleft') hright')
  | or => exact .more (.one (.one hleft')) (.one hright')

theorem Condition.Expressible.spells {c : Condition} (h : c.Expressible) :
    ∃ ks, SpellsAll c.words ks ∧ Disjunction ks c := by
  induction c with
  | compare field op value =>
      obtain ⟨hname, hvalue⟩ := h
      obtain ⟨k, hword, hkind⟩ := hvalue.spells
      exact ⟨_, .cons hname.spells (.cons (spells_operator op) (.cons hword .nil)),
        .one (.one (.compare field op hkind))⟩
  | contains field value =>
      obtain ⟨hname, hvalue⟩ := h
      obtain ⟨k, hword, hkind⟩ := hvalue.spells
      exact ⟨_, .cons (spells_keyword .contains) (.cons spells_lparen (.cons hname.spells
        (.cons spells_comma (.cons hword (.cons spells_rparen .nil))))),
        .one (.one (.contains field hkind))⟩
  | logical op left right ihleft ihright =>
      obtain ⟨ks, hleft, hderives⟩ := ihleft h.1
      obtain ⟨ks', hright, hderives'⟩ := ihright h.2
      refine ⟨_, ?_, disjunction_logical hderives hderives'⟩
      have hfirst : SpellsAll ([['(']] ++ (left.words ++ [[')']])) _ :=
        SpellsAll.append (.cons spells_lparen .nil) (hleft.append (.cons spells_rparen .nil))
      have hsecond : SpellsAll ([['(']] ++ (right.words ++ [[')']])) _ :=
        SpellsAll.append (.cons spells_lparen .nil) (hright.append (.cons spells_rparen .nil))
      have hall := hfirst.append (.cons (spells_keyword op.keyword) hsecond)
      simpa [Condition.words] using hall

theorem spells_limit {n : Nat} (h : n ≤ 2 ^ 53) :
    ∃ ks, SpellsAll (Clause.limit n).words ks ∧ OneClause ks (.limit n) := by
  let numeral : Decimal.Numeral := ⟨Decimal.digitChars n, [], 0⟩
  obtain ⟨hbound, hvalue⟩ := Decimal.digits_read_back h
  have hplain : numeral.Plain :=
    ⟨Nat.toDigits_ne_nil, fun c hc => Decimal.isDigit_of_mem_digitChars
      (by rwa [List.append_nil] at hc), rfl⟩
  have hone : OneClause [.keyword .limit, .number numeral.value true]
      (.limit numeral.value.toUInt64.toNat) := .limit _ hbound
  rw [hvalue] at hone
  exact ⟨_, .cons (spells_keyword .limit) (.cons (spells_number hplain) .nil), hone⟩

/-- A clause of an expressible query. -/
def Clause.Expressible : Clause → Prop
  | .source _ => True
  | .condition c => c.Expressible
  | .order o => IsName o.field
  | .limit n => n ≤ 2 ^ 53

theorem Clause.Expressible.spells {c : Clause} (h : c.Expressible) :
    ∃ ks, SpellsAll c.words ks ∧ OneClause ks c := by
  cases c with
  | source path =>
      exact ⟨_, .cons (spells_keyword .from) (.cons (spells_quote path) .nil), .quoted path⟩
  | condition c =>
      obtain ⟨ks, hwords, hderives⟩ := Condition.Expressible.spells h
      exact ⟨_, .cons (spells_keyword .where) hwords, .condition hderives⟩
  | order o =>
      exact ⟨_, .cons (spells_keyword .sort) (.cons (IsName.spells h)
        (.cons (spells_keyword o.direction.keyword) .nil)), .directed o.field o.direction⟩
  | limit n => exact spells_limit h

theorem spells_clauses {cs : List Clause} (h : ∀ c ∈ cs, c.Expressible) :
    ∃ ks, SpellsAll (cs.flatMap Clause.words) ks ∧ Clauses ks cs := by
  induction cs with
  | nil => exact ⟨[], .nil, .nil⟩
  | cons c cs ih =>
      rw [List.forall_mem_cons] at h
      obtain ⟨ks, hwords, hone⟩ := h.1.spells
      obtain ⟨ks', hmore, hclauses⟩ := ih h.2
      exact ⟨ks ++ ks', hwords.append hmore, .cons hone hclauses⟩

theorem spells_moreNames {names : List String} (h : ∀ name ∈ names, IsName name) :
    ∃ ks, SpellsAll (names.flatMap fun name => [[','], name.toList]) ks ∧ MoreNames ks names := by
  induction names with
  | nil => exact ⟨[], .nil, .nil⟩
  | cons name names ih =>
      rw [List.forall_mem_cons] at h
      obtain ⟨ks, hwords, hnames⟩ := ih h.2
      exact ⟨_, .cons spells_comma (.cons h.1.spells hwords), .cons name hnames⟩

theorem Expressible.spells_fields {q : Query} (h : q.Expressible) :
    ∃ ks, SpellsAll (fieldWords (q.fields.getD [])) ks ∧ Fields q.shape ks q.fields := by
  cases hfields : q.fields with
  | none => exact ⟨[], .nil, .absent q.shape⟩
  | some names =>
      obtain ⟨hshape, hne, hnames⟩ := h.fields names hfields
      cases names with
      | nil => exact absurd rfl hne
      | cons first names =>
          rw [List.forall_mem_cons] at hnames
          obtain ⟨ks, hwords, hmore⟩ := spells_moreNames hnames.2
          rw [hshape]
          exact ⟨_, .cons hnames.1.spells hwords, .listed first hmore⟩

/-! The clauses of a query, once each. -/

theorem mem_clauses (q : Query) (c : Clause) : c ∈ q.clauses ↔ Carries q c := by
  cases c <;> simp [clauses, Carries, eq_comm]

theorem nodup_clauses (q : Query) : (q.clauses.map Clause.keyword).Nodup := by
  obtain ⟨shape, fields, source, condition, order, limit⟩ := q
  cases source <;> cases condition <;> cases order <;> cases limit <;>
    simp [clauses, Clause.keyword]

theorem Expressible.clause {q : Query} (h : q.Expressible) {c : Clause} (hc : c ∈ q.clauses) :
    c.Expressible := by
  rw [mem_clauses] at hc
  cases c with
  | source path => trivial
  | condition c => exact h.condition c hc
  | order o => exact h.order o hc
  | limit n => exact h.limit n hc

/-- The words of an expressible query spell tokens that the grammar derives it from. -/
theorem Expressible.spells {q : Query} (h : q.Expressible) {cs : List Clause}
    (hcs : cs.Perm q.clauses) : ∃ ks, SpellsAll (q.words cs) ks ∧ Derives ks q := by
  obtain ⟨fieldKinds, hfieldWords, hfields⟩ := h.spells_fields
  obtain ⟨clauseKinds, hclauseWords, hclauses⟩ :=
    spells_clauses fun c hc => h.clause (hcs.mem_iff.mp hc)
  refine ⟨_, .cons (spells_keyword q.shape.keyword) (hfieldWords.append hclauseWords), fieldKinds,
    clauseKinds, cs, rfl, hfields, hclauses, ?_, fun c => ?_⟩
  · exact (hcs.map Clause.keyword).nodup_iff.mpr (nodup_clauses q)
  · rw [hcs.mem_iff, mem_clauses]

/-- Every text that is laid out from the words of an expressible query is parsed as the query. -/
theorem parse_layout {q : Query} (h : q.Expressible) {cs : List Clause}
    (hcs : cs.Perm q.clauses) {text : String} (hlayout : Layout (q.words cs) text.toList) :
    parse text = .ok q := by
  obtain ⟨ks, hspells, hderives⟩ := h.spells hcs
  obtain ⟨tokens, stop, htokens, rfl⟩ := tokensFrom_of_layout hlayout hspells 0
  exact (parse_eq_ok_iff htokens).mpr hderives

/-- Printing a query that the language can express and parsing the text gives back the query,
whatever the order of its clauses and the white space between its words. -/
theorem parse_print {q : Query} (h : q.Expressible) {cs : List Clause} (hcs : cs.Perm q.clauses) :
    parse (q.print cs) = .ok q ∧
      ∀ text : String, Layout (q.words cs) text.toList → parse text = .ok q := by
  have hall (text : String) (hlayout : Layout (q.words cs) text.toList) : parse text = .ok q :=
    parse_layout h hcs hlayout
  refine ⟨hall _ ?_, hall⟩
  rw [print, String.toList_ofList]
  exact layout_spaced _

/-- A printed query with a nested condition, a number with a point, and quotes and backslashes in a
path. -/
theorem parse_print_table :
    let condition : Condition := .logical .and (.contains "tags" (.string "log"))
      (.logical .or (.compare "weight" .ge (.number 0.5)) (.compare "done" .eq (.boolean true)))
    let q : Query :=
      { shape := .table
        fields := some ["title", "due.date"]
        source := some "a \"b\" \\ c"
        condition := some condition
        order := some ⟨"due.date", .descending⟩
        limit := some 12 }
    let cs : List Clause :=
      [.order ⟨"due.date", .descending⟩, .limit 12, .source "a \"b\" \\ c", .condition condition]
    q.Expressible ∧ cs.Perm q.clauses ∧
      q.print cs = "TABLE title, due.date SORT due.date DESC LIMIT 12 FROM " ++
        "\"a \\\"b\\\" \\\\ c\" WHERE (CONTAINS(tags, \"log\")) AND " ++
        "((weight >= 0.5) OR (done = true))" ∧
      parse (q.print cs) = .ok q := by
  intro condition q cs
  have hhalf : Decimal.classify 0.5 = .finite false ⟨2 ^ 52, -53⟩ := by
    have hbits : (0.5 : Float).toBits.toNat = 1022 * 2 ^ 52 := by decide +kernel
    rw [Decimal.classify, hbits]
    rfl
  have hfields : ∀ name ∈ ["title", "due.date"], IsName name := by decide +kernel
  have hq : q.Expressible :=
    { fields := by
        rintro names ⟨⟩
        exact ⟨rfl, List.cons_ne_nil _ _, hfields⟩
      condition := by
        rintro c ⟨⟩
        have hlog : IsName "tags" := by decide +kernel
        have hweight : IsName "weight" := by decide +kernel
        have hdone : IsName "done" := by decide +kernel
        exact ⟨⟨hlog, trivial⟩, ⟨hweight, _, hhalf⟩, ⟨hdone, trivial⟩⟩
      order := by
        rintro o ⟨⟩
        exact hfields "due.date" (by simp)
      limit := by
        rintro n ⟨⟩
        norm_num }
  have hcs : ([.order ⟨"due.date", .descending⟩, .limit 12] ++
      [.source "a \"b\" \\ c", .condition condition] : List Clause).Perm q.clauses :=
    List.perm_append_comm
  refine ⟨hq, hcs, ?_, (parse_print hq hcs).1⟩
  decide +kernel

end Slipbox.Query
