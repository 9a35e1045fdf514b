import Slipbox.Proofs.Query.Emission

/-! The whole statement of a query, read back: the columns, the joined conditions, the order and the
limit that its text spells. The condition of a query is not put in parentheses behind the test of
its source, so a disjunction at its top falls apart there. -/

namespace Slipbox.Query

open Sql (Spells Lexeme)
open Sql.Grammar

/-- What the test of a source stands for in front of all other placeholders. -/
def sourceTree : Sql.Condition :=
  .compare .eq (.substr (.column .path) (.integer 1) (.param 0)) (.param 1) .binary

/-- A condition that may be absent, its fragment and what the fragment stands for. -/
inductive EmitsOption :
    Option Condition → Option Fragment → Option (Nat → Sql.Condition) → Prop
  | none : EmitsOption none none none
  | some {w : Condition} {f : Fragment} {tree : Nat → Sql.Condition} (h : Emits w f tree) :
      EmitsOption (some w) (some f) (some tree)

/-- The condition of the statement of a query with the source and the condition. -/
def filterOf (source : Option String) (tree : Option (Nat → Sql.Condition)) :
    Option Sql.Condition :=
  match source, tree with
  | none, none => none
  | some _, none => some sourceTree
  | none, some c => some (c 0)
  | some _, some c => some (sourceTree.andThen (c 2))

/-- The terms of the order: paths decide where the column does not. -/
def orderTerms (c : Sql.Column) (d : Direction) : List (Sql.Column × Bool) :=
  (c, decide (d = .descending)) :: if c = .path then [] else [(.path, false)]

theorem translate_eq_ok {q : Query} {defaultLimit : Nat} {t : Translation} :
    translate q defaultLimit = .ok t ↔
      ∃ named f order, resolveFields q.fields = .ok named ∧
        q.condition.mapM Condition.translate = .ok f ∧ Translation.orderOf q.order = .ok order ∧
        t = .assemble q.shape named (q.source.toList.map sourceTest ++ f.toList) order
          (q.limit.getD defaultLimit) := by
  simp only [translate, bind_eq_ok, Except.ok.injEq, eq_comm (b := t)]
  constructor
  · rintro ⟨named, hnamed, f, hf, order, horder, h⟩
    exact ⟨named, f, order, hnamed, hf, horder, h⟩
  · rintro ⟨named, f, order, hnamed, hf, horder, h⟩
    exact ⟨named, hnamed, f, hf, order, horder, h⟩

theorem emitsOption_of_translate {w : Option Condition} {f : Option Fragment}
    (h : w.mapM Condition.translate = .ok f) : ∃ tree, EmitsOption w f tree := by
  rcases optionMapM_eq_ok.mp h with ⟨rfl, rfl⟩ | ⟨w, f, rfl, hw, rfl⟩
  · exact ⟨_, .none⟩
  · obtain ⟨tree, htree⟩ := emits_of_translate hw
    exact ⟨_, .some htree⟩

theorem column_of_orderOf {o : Option Order} {f : Field} {d : Direction}
    (h : Translation.orderOf o = .ok (f, d)) : ∃ c, f.column = some c := by
  rw [← Option.isSome_iff_exists, ← Field.isColumn_eq]
  unfold Translation.orderOf at h
  split at h
  · cases h
    rfl
  · obtain ⟨g, _, h⟩ := bind_eq_ok.mp h
    split at h
    · next hcolumn =>
      cases h
      exact hcolumn
    · cases h

theorem spells_sourceTest (path : String) :
    ∃ ls, Spells 0 (sourceTest path).sql 2 ls ∧ Primary ls sourceTree := by
  have hprimary := Primary.compare .eq
    (.substr (.column .path) (.number 1) (.param 0)) (.simple (.param 1))
  refine ⟨_, ?_, hprimary⟩
  intro rest
  simp [sourceTest, Sql.Column.pieces, Sql.Column.spelling, Lexeme.scan, Lexeme.isWordStart,
    Lexeme.isWordChar, List.dropWhile, List.takeWhile, Function.comp_def, Decimal.digitsValue]

/-- The joined fragments of a query with a source or a condition spell one condition. -/
theorem spells_fragments {source : Option String} {w : Option Condition} {f : Option Fragment}
    {tree : Option (Nat → Sql.Condition)} (h : EmitsOption w f tree) {c : Sql.Condition}
    (hc : filterOf source tree = some c) :
    ∃ ls, Disjunction ls c ∧
      Spells 0 (" AND ".intercalate ((source.toList.map sourceTest ++ f.toList).map (·.sql)))
        ((source.toList.map sourceTest ++ f.toList).flatMap (·.params)).length ls := by
  cases h with
  | none =>
      cases source with
      | none => cases hc
      | some path =>
          cases hc
          obtain ⟨ls, hspells, hprimary⟩ := spells_sourceTest path
          exact ⟨ls, .one (.one hprimary), by simpa [sourceTest] using hspells⟩
  | @some w f tree hw =>
      cases source with
      | none =>
          cases hc
          obtain ⟨ls, hspells, hstands⟩ := hw.spells 0
          exact ⟨ls, hstands.1, by simpa using hspells⟩
      | some path =>
          cases hc
          obtain ⟨ls, hsource, hprimary⟩ := spells_sourceTest path
          obtain ⟨ls', hcondition, hstands⟩ := hw.spells 2
          have hspells := hsource.append ((Sql.spells_and 2).append hcondition)
          have hlength : ([sourceTest path, f].flatMap (·.params)).length =
              2 + f.params.length := by
            simp [sourceTest]
            omega
          have htext : " AND ".intercalate ([sourceTest path, f].map (·.sql)) =
              (sourceTest path).sql ++ (" AND " ++ f.sql) := by
            simp only [List.map_cons, List.map_nil, String.intercalate_cons_cons,
              String.intercalate_singleton, String.append_assoc]
          have hlist : (some path).toList.map sourceTest ++ (some f).toList =
              [sourceTest path, f] := rfl
          refine ⟨_, hstands.2 ls _ (.one hprimary), ?_⟩
          rw [hlist, hlength, htext]
          exact hspells

/-- Between the columns and the order stands the condition, if there is one. -/
theorem spells_filterText (source : Option String) {w : Option Condition} {f : Option Fragment}
    {tree : Option (Nat → Sql.Condition)} (h : EmitsOption w f tree) :
    ∃ ls, Spells 0
        ("FROM notes n" ++ Translation.filterText (source.toList.map sourceTest ++ f.toList) ++
          " ORDER BY ")
        ((source.toList.map sourceTest ++ f.toList).flatMap (·.params)).length
        ([.word "FROM", .word "notes", .word "n"] ++ ls ++ [.word "ORDER", .word "BY"]) ∧
      ∀ rest, Sql.Read.filter (ls ++ .word "ORDER" :: rest) =
        some (filterOf source tree, .word "ORDER" :: rest) := by
  cases hc : filterOf source tree with
  | none =>
      have hempty : source.toList.map sourceTest ++ f.toList = [] := by
        cases h <;> cases source <;> simp_all [filterOf]
      refine ⟨[], ?_, fun rest => rfl⟩
      rw [hempty]
      intro rest
      simp [Translation.filterText, Lexeme.scan, Lexeme.isWordStart, Lexeme.isWordChar,
        List.dropWhile, List.takeWhile, Function.comp_def]
  | some c =>
      obtain ⟨ls, hls, hspells⟩ := spells_fragments h hc
      have hfilter : Translation.filterText (source.toList.map sourceTest ++ f.toList) =
          " WHERE " ++
            " AND ".intercalate ((source.toList.map sourceTest ++ f.toList).map (·.sql)) := by
        cases h <;> cases source <;> simp_all [filterOf, Translation.filterText]
      have hopen : Spells 0 ("FROM notes n" ++ " WHERE ") 0
          [.word "FROM", .word "notes", .word "n", .word "WHERE"] := by
        intro rest
        simp [Lexeme.scan, Lexeme.isWordStart, Lexeme.isWordChar, List.dropWhile, List.takeWhile,
          Function.comp_def]
      have hclose (k : Nat) : Spells k " ORDER BY " k [.word "ORDER", .word "BY"] := by
        intro rest
        simp [Lexeme.scan, Lexeme.isWordStart, Lexeme.isWordChar, List.dropWhile, List.takeWhile,
          Function.comp_def]
      refine ⟨.word "WHERE" :: ls, ?_, fun rest => ?_⟩
      · have hall := (hopen.append hspells).append (hclose _)
        rw [hfilter, ← String.append_assoc]
        simpa using hall
      · have hends : Sql.Read.Ends (.word "ORDER" :: rest) := by simp [Sql.Read.Ends, Sql.Avoids]
        rw [List.cons_append, Sql.Read.filter, Sql.Read.condition_complete hls hends]
        rfl

/-- The column of the order, its direction, the tie break on paths and the limit. -/
theorem spells_order {f : Field} {c : Sql.Column} (hcolumn : f.column = some c) (d : Direction)
    (k : Nat) :
    ∃ ls, Spells k
        (s!"n.{f.name} {d.word}" ++ (if f = .path then "" else ", n.path ASC") ++ " LIMIT ?")
        (k + 1) (ls ++ [.word "LIMIT", .param k]) ∧
      Sql.Read.order (ls ++ [.word "LIMIT", .param k]) =
        some (orderTerms c d, [.word "LIMIT", .param k]) := by
  have hpath : f = .path ↔ c = .path := by
    cases f <;> cases hcolumn <;> simp
  have htext : s!"n.{f.name} {d.word}" ++ (if f = .path then "" else ", n.path ASC") ++ " LIMIT ?" =
      c.text ++ " " ++ (d.word ++ (if f = .path then "" else ", n.path ASC") ++ " LIMIT ?") := by
    rw [← Field.text_of_column hcolumn]
    exact String.toList_inj.mp (by simp [toString])
  rw [htext]
  refine ⟨c.pieces ++ .word d.word :: if c = .path then [] else
    .comma :: (Sql.Column.path.pieces ++ [.word "ASC"]), ?_, ?_⟩
  · rw [List.append_assoc]
    refine (c.spells k).1.append fun rest => ?_
    simp only [hpath]
    cases d <;> split <;>
      simp [Direction.word, Direction.keyword, Keyword.word, Sql.Column.pieces,
        Sql.Column.spelling, Lexeme.scan, Lexeme.isWordStart, Lexeme.isWordChar, List.dropWhile,
        List.takeWhile, Function.comp_def]
  · rw [List.append_assoc, Sql.Read.order, Sql.Read.orderTerm, Sql.Read.column_pieces]
    cases d <;> by_cases hc : c = .path <;>
      simp [hc, orderTerms, Direction.word, Direction.keyword, Keyword.word, Sql.Read.orderTerm,
        Sql.Read.column_pieces]

theorem selected_text (fields : List Field) :
    (fields.filter Field.isColumn).map (fun f => s!"n.{f.name}") =
      (fields.filterMap Field.column).map Sql.Column.text := by
  induction fields with
  | nil => rfl
  | cons f fields ih =>
      cases hc : f.column with
      | none =>
          have hf : f.isColumn = false := by rw [Field.isColumn_eq, hc]; rfl
          rw [List.filter_cons_of_neg (by simp [hf]), List.filterMap_cons_none hc, ih]
      | some c =>
          have hf : f.isColumn = true := by rw [Field.isColumn_eq, hc]; rfl
          rw [List.filter_cons_of_pos hf, List.filterMap_cons_some hc, List.map_cons, ih,
            Field.text_of_column hc, List.map_cons]

theorem moreColumns_more (cs : List Sql.Column) {rest : List Lexeme}
    (hrest : rest.head? ≠ some .comma) :
    Sql.Read.moreColumns (Sql.Column.more cs ++ rest) = some (cs, rest) := by
  induction cs with
  | nil =>
      rw [Sql.Column.more, List.nil_append]
      unfold Sql.Read.moreColumns
      split
      · exact absurd rfl hrest
      · rfl
  | cons c cs ih =>
      rw [Sql.Column.more, Sql.Column.pieces]
      simp [Sql.Read.moreColumns, Sql.Read.ofSpelling?_spelling, ih]

theorem select_pieces {c : Sql.Column} {cs : List Sql.Column} {ls ls' : List Lexeme}
    {condition : Option Sql.Condition} {order : List (Sql.Column × Bool)} {k : Nat}
    (hfilter : ∀ rest, Sql.Read.filter (ls ++ .word "ORDER" :: rest) =
      some (condition, .word "ORDER" :: rest))
    (horder : Sql.Read.order (ls' ++ [.word "LIMIT", .param k]) =
      some (order, [.word "LIMIT", .param k])) :
    Sql.Read.select ([.word "SELECT"] ++ (c.pieces ++ Sql.Column.more cs ++
      ([.word "FROM", .word "notes", .word "n"] ++ ls ++ [.word "ORDER", .word "BY"] ++
        (ls' ++ [.word "LIMIT", .param k])))) = some ⟨c :: cs, condition, order, .param k⟩ := by
  have hmore := @moreColumns_more cs (.word "FROM" :: .word "notes" :: .word "n" ::
    (ls ++ .word "ORDER" :: .word "BY" :: (ls' ++ [.word "LIMIT", .param k]))) (by simp)
  simp [Sql.Read.select, Sql.Read.words, Sql.Read.one, Sql.Read.column_pieces, hmore, hfilter,
    horder, Sql.Read.simple]

/-- The text of a statement is read back to the columns, the condition, the order and the limit that
it has been put together from. -/
theorem ofText?_assemble (shape : Shape) (named : List Field) (source : Option String)
    {w : Option Condition} {f : Option Fragment} {tree : Option (Nat → Sql.Condition)}
    (h : EmitsOption w f tree) {o : Field} {c : Sql.Column} (hc : o.column = some c)
    (d : Direction) (limit : Nat) :
    let fragments := source.toList.map sourceTest ++ f.toList
    let t := Translation.assemble shape named fragments (o, d) limit
    Sql.Select.ofText? t.sql = some
      { columns := .id :: t.fields.filterMap Field.column
        condition := filterOf source tree
        order := orderTerms c d
        limit := .param (fragments.flatMap (·.params)).length } := by
  intro fragments t
  obtain ⟨ls, hfilter, hreadFilter⟩ := spells_filterText source h
  obtain ⟨ls', horder, hreadOrder⟩ := spells_order hc d (fragments.flatMap (·.params)).length
  have hstart : Spells 0 "SELECT " 0 [.word "SELECT"] := by
    intro rest
    simp [Lexeme.scan, Lexeme.isWordStart, Lexeme.isWordChar, List.dropWhile, List.takeWhile]
  have hcolumns := Sql.Column.spells_intercalate 0 .id (t.fields.filterMap Field.column)
  have hspells := hstart.append (hcolumns.append (hfilter.append horder))
  have hselected : "n.id" :: t.columns.map (fun f => s!"n.{f.name}") =
      (Sql.Column.id :: t.fields.filterMap Field.column).map Sql.Column.text := by
    rw [List.map_cons, ← selected_text]
    rfl
  have htext : t.sql = "SELECT " ++
      (", ".intercalate ((Sql.Column.id :: t.fields.filterMap Field.column).map Sql.Column.text) ++
        " " ++ ("FROM notes n" ++ Translation.filterText fragments ++ " ORDER BY " ++
          (s!"n.{o.name} {d.word}" ++ (if o = .path then "" else ", n.path ASC") ++
            " LIMIT ?"))) := by
    rw [← hselected]
    change "SELECT " ++ ", ".intercalate ("n.id" :: t.columns.map fun f => s!"n.{f.name}") ++
      " FROM notes n" ++ Translation.filterText fragments ++ Translation.orderText o d ++
      " LIMIT ?" = _
    generalize ", ".intercalate ("n.id" :: t.columns.map fun f => s!"n.{f.name}") = selected
    exact String.toList_inj.mp (by simp [toString, Translation.orderText])
  rw [Sql.Select.ofText?, htext, hspells.scan_eq, Option.bind_eq_bind, Option.bind_some]
  exact select_pieces hreadFilter hreadOrder

end Slipbox.Query
