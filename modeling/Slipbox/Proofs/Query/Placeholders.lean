import Mathlib.Data.List.Forall2
import Slipbox.Proofs.Query.Statement

/-! The placeholders of a translated query. Each stands behind a text of its own in the statement
and has its value at the same place of the list, and nothing that is written as a value in the query
has any part in the text. -/

namespace Slipbox.Query

/-- Two names that mean the same field, or nothing. -/
def SameField (a b : String) : Prop :=
  Field.ofName? a = Field.ofName? b

instance (a b : String) : Decidable (SameField a b) :=
  inferInstanceAs (Decidable (_ = _))

namespace Condition

/-- Two conditions that differ in their values and in how they write their fields. -/
inductive SameForm : Condition → Condition → Prop
  | compare {a b : String} (op : CompareOp) (x y : Literal) (hfield : SameField a b) :
      SameForm (.compare a op x) (.compare b op y)
  | contains {a b : String} (x y : Literal) (hfield : SameField a b) :
      SameForm (.contains a x) (.contains b y)
  | logical {l l' r r' : Condition} (op : Connective) (hleft : SameForm l l')
      (hright : SameForm r r') : SameForm (.logical op l r) (.logical op l' r')

/-- The conditions that are put together, from left to right. -/
def leaves : Condition → List Condition
  | .logical _ left right => left.leaves ++ right.leaves
  | w => [w]

end Condition

/-- Two queries that differ in their values and in how they write their fields. The limits are
values, and they may be left out. -/
structure SameForm (q q' : Query) : Prop where
  shape : q.shape = q'.shape
  fields : Option.Rel (List.Forall₂ SameField) q.fields q'.fields
  source : q.source.isSome = q'.source.isSome
  condition : Option.Rel Condition.SameForm q.condition q'.condition
  order : Option.Rel (fun o o' => SameField o.field o'.field ∧ o.direction = o'.direction)
    q.order q'.order

/-- A placeholder: the text right before it, and the value that it stands for. -/
structure Slot where
  lead : String
  value : Sql.Value

/-- The one placeholder of a condition that is not put together from others. -/
inductive Binds : Condition → Slot → Prop
  | compare {name : String} {f : Field} (op : CompareOp) (value : Literal)
      (hname : Field.ofName? name = some f) (hcolumn : f.isColumn = true) :
      Binds (.compare name op value) ⟨s!"n.{f.name} {op.symbol} ", comparedValue f value⟩
  | tag {name : String} (op : CompareOp) (value : Literal)
      (hname : Field.ofName? name = some .tags) :
      Binds (.compare name op value) ⟨"t.tag = ", .text value.text⟩
  | contains {name : String} {f : Field} (value : Literal)
      (hname : Field.ofName? name = some f) (hcolumn : f.isColumn = true) :
      Binds (.contains name value)
        ⟨s!"n.{f.name} LIKE ", .text ("%" ++ escapePattern value.text ++ "%")⟩
  | containsTag {name : String} (value : Literal) (hname : Field.ofName? name = some .tags) :
      Binds (.contains name value) ⟨"t.tag = ", .text value.text⟩

/-- The length of a source's path and the path itself. -/
def sourceSlots (path : String) : List Slot :=
  [⟨"substr(n.path, 1, ", .integer (min path.length maxInteger)⟩, ⟨") = ", .text path⟩]

def limitSlot (limit : Nat) : Slot :=
  ⟨" LIMIT ", .integer (min limit maxInteger)⟩

/-- The question marks of a text stand one behind each of the leads, in their order. -/
inductive Places : List Char → List String → Prop
  | none {cs : List Char} (h : '?' ∉ cs) : Places cs []
  | one {before rest : List Char} {lead : String} {leads : List String} (hbefore : '?' ∉ before)
      (hlead : '?' ∉ lead.toList) (hrest : Places rest leads) :
      Places (before ++ lead.toList ++ '?' :: rest) (lead :: leads)

namespace Places

theorem append {cs cs' : List Char} {leads leads' : List String} (h : Places cs leads)
    (h' : Places cs' leads') : Places (cs ++ cs') (leads ++ leads') := by
  induction h with
  | none hcs =>
      cases h' with
      | none hcs' => exact .none (by simp [hcs, hcs'])
      | @one before _ _ _ hbefore hlead hrest =>
          rw [List.nil_append, ← List.append_assoc, ← List.append_assoc]
          exact .one (by simp [hcs, hbefore]) hlead hrest
  | one hbefore hlead _ ih =>
      rw [List.append_assoc, List.cons_append, List.cons_append]
      exact .one hbefore hlead ih

theorem count_eq {cs : List Char} {leads : List String} (h : Places cs leads) :
    cs.count '?' = leads.length := by
  induction h with
  | none hcs => exact List.count_eq_zero_of_not_mem hcs
  | one hbefore hlead _ ih =>
      rw [List.count_append, List.count_append, List.count_cons_self, ih,
        List.count_eq_zero_of_not_mem hbefore, List.count_eq_zero_of_not_mem hlead,
        List.length_cons]
      omega

theorem text {s : String} (h : '?' ∉ s.toList) : Places s.toList [] :=
  .none h

/-- A text with one question mark. -/
theorem between (before lead behind : String) (hbefore : '?' ∉ before.toList)
    (hlead : '?' ∉ lead.toList) (hbehind : '?' ∉ behind.toList) :
    Places (before ++ lead ++ "?" ++ behind).toList [lead] := by
  have h := Places.one hbefore hlead (.none hbehind)
  simpa using h

theorem intercalate (separator : String) (hseparator : '?' ∉ separator.toList)
    {texts : List String} {leads : List (List String)}
    (h : List.Forall₂ (fun s leads => Places s.toList leads) texts leads) :
    Places (separator.intercalate texts).toList leads.flatten := by
  induction h with
  | nil => exact .text List.not_mem_nil
  | @cons s leads texts _ hs htexts ih =>
      cases htexts with
      | nil => simpa using hs
      | cons =>
          rw [String.intercalate_cons_cons, String.toList_append, String.toList_append,
            List.append_assoc]
          exact hs.append ((text hseparator).append ih)

end Places

/-- The placeholders of a fragment and their values. -/
def Aligned (f : Fragment) (slots : List Slot) : Prop :=
  Places f.sql.toList (slots.map Slot.lead) ∧ f.params = slots.map Slot.value

theorem Aligned.count_eq {f : Fragment} {slots : List Slot} (h : Aligned f slots) :
    f.sql.toList.count '?' = f.params.length := by
  rw [h.1.count_eq, h.2, List.length_map, List.length_map]

theorem name_plain (f : Field) : '?' ∉ f.name.toList := by
  cases f <;> decide

theorem symbol_plain (op : CompareOp) : '?' ∉ op.symbol.toList := by
  cases op <;> decide

theorem word_plain (op : Connective) : '?' ∉ op.word.toList := by
  cases op <;> decide

theorem aligned_tagTest (negated : Bool) (value : Literal) :
    Aligned (tagTest negated value) [⟨"t.tag = ", .text value.text⟩] := by
  have htext : (tagTest negated value).sql =
      (if negated then "NOT " else "") ++ "EXISTS (SELECT 1 FROM note_tags t " ++
        "WHERE t.note_id = n.id AND " ++ "t.tag = " ++ "?" ++ " COLLATE NOCASE)" := by
    cases negated <;> rfl
  refine ⟨?_, rfl⟩
  rw [htext]
  cases negated <;> exact .between _ _ _ (by decide) (by decide) (by decide)

theorem aligned_sourceTest (path : String) : Aligned (sourceTest path) (sourceSlots path) := by
  refine ⟨?_, rfl⟩
  have hlength := Places.between "" "substr(n.path, 1, " ""
    (by decide) (by decide) (by decide)
  have hpath := Places.between "" ") = " ""
    (by decide) (by decide) (by decide)
  simpa [sourceTest, sourceSlots] using hlength.append hpath

theorem Emits.aligned {w : Condition} {f : Fragment} {tree : Nat → Sql.Condition}
    (h : Emits w f tree) : ∃ slots, List.Forall₂ Binds w.leaves slots ∧ Aligned f slots := by
  induction h with
  | @compare name f c op value hname hcolumn =>
      have hisColumn : f.isColumn = true := by rw [Field.isColumn_eq, hcolumn]; rfl
      have hlead : '?' ∉ (s!"n.{f.name} {op.symbol} ").toList := by
        simp [toString, name_plain, symbol_plain]
      refine ⟨_, .cons (.compare op value hname hisColumn) .nil, ?_, rfl⟩
      have h := Places.between "" _ "" (by decide) hlead (by decide)
      simpa [toString] using h
  | tag value hname => exact ⟨_, .cons (.tag .eq value hname) .nil, aligned_tagTest false value⟩
  | noTag value hname => exact ⟨_, .cons (.tag .ne value hname) .nil, aligned_tagTest true value⟩
  | @contains name f c value hname hcolumn =>
      have hisColumn : f.isColumn = true := by rw [Field.isColumn_eq, hcolumn]; rfl
      have hlead : '?' ∉ (s!"n.{f.name} LIKE ").toList := by
        simp [toString, name_plain]
      refine ⟨_, .cons (.contains value hname hisColumn) .nil, ?_, rfl⟩
      have h := Places.between "" _ " ESCAPE '\\'" (by decide) hlead (by decide)
      simpa [toString] using h
  | containsTag value hname =>
      exact ⟨_, .cons (.containsTag value hname) .nil, aligned_tagTest false value⟩
  | @logical left right l r l' r' op _ _ ihleft ihright =>
      obtain ⟨slots, hslots, hl⟩ := ihleft
      obtain ⟨slots', hslots', hr⟩ := ihright
      refine ⟨slots ++ slots', List.rel_append hslots hslots', ?_, ?_⟩
      · have hopen : Places "(".toList [] := .text (by decide)
        have hmiddle : Places (s!") {op.word} (").toList [] :=
          .text (by simp [toString, word_plain])
        have hclose : Places ")".toList [] := .text (by decide)
        have h := (hopen.append hl.1).append (hmiddle.append (hr.1.append hclose))
        simpa [toString] using h
      · rw [hl.2, hr.2, List.map_append]

/-- Fragments that are joined keep their placeholders. -/
theorem places_filterText {fragments : List Fragment} {slots : List (List Slot)}
    (h : List.Forall₂ Aligned fragments slots) :
    Places (Translation.filterText fragments).toList (slots.flatten.map Slot.lead) := by
  have htexts : List.Forall₂ (fun s leads => Places s.toList leads) (fragments.map (·.sql))
      (slots.map (·.map Slot.lead)) := by
    rw [List.forall₂_map_left_iff, List.forall₂_map_right_iff]
    exact h.imp fun _ _ haligned => haligned.1
  have hjoined := Places.intercalate " AND " (by decide) htexts
  rw [List.map_flatten]
  cases h with
  | nil => exact .text (by decide)
  | cons =>
      have hwhere : Places " WHERE ".toList [] := .text (by decide)
      simpa [Translation.filterText] using hwhere.append hjoined

theorem places_selected (columns : List Field) :
    Places (", ".intercalate ("n.id" :: columns.map fun f => s!"n.{f.name}")).toList [] := by
  have hcolumns : List.Forall₂ (fun (s : String) leads => Places s.toList leads)
      (columns.map fun f => s!"n.{f.name}") (columns.map fun _ => []) := by
    rw [List.forall₂_map_left_iff, List.forall₂_map_right_iff]
    exact List.forall₂_same.mpr fun f _ => .text (by simp [toString, name_plain])
  have hid : Places "n.id".toList [] := .text (by decide)
  have h := Places.intercalate ", " (by decide) (hcolumns.cons hid)
  simpa using h

theorem orderText_plain (f : Field) (d : Direction) : '?' ∉ (Translation.orderText f d).toList := by
  cases d <;> unfold Translation.orderText <;> split <;>
    simp [toString, name_plain, Direction.word, Direction.keyword, Keyword.word]

theorem aligned_assemble (shape : Shape) (named : List Field) {fragments : List Fragment}
    {slots : List (List Slot)} (h : List.Forall₂ Aligned fragments slots)
    (order : Field × Direction) (limit : Nat) :
    let t := Translation.assemble shape named fragments order limit
    Aligned ⟨t.sql, t.params⟩ (slots.flatten ++ [limitSlot limit]) := by
  intro t
  constructor
  · have hselect : Places "SELECT ".toList [] := .text (by decide)
    have hfrom : Places " FROM notes n".toList [] := .text (by decide)
    have horder : Places (Translation.orderText order.1 order.2).toList [] :=
      .text (orderText_plain order.1 order.2)
    have hlimit := Places.between "" " LIMIT " ""
      (by decide) (by decide) (by decide)
    have hall := hselect.append ((places_selected t.columns).append (hfrom.append
      ((places_filterText h).append (horder.append hlimit))))
    simpa [t, Translation.assemble, limitSlot] using hall
  · have hparams : fragments.flatMap (·.params) = slots.flatten.map Slot.value := by
      induction h with
      | nil => rfl
      | cons haligned _ ih =>
          rw [List.flatMap_cons, haligned.2, ih, List.flatten_cons, List.map_append]
    rw [List.map_append, ← hparams]
    rfl

theorem aligned_condition {w : Option Condition} {f : Option Fragment}
    (h : w.mapM Condition.translate = .ok f) :
    ∃ slots : List (List Slot), List.Forall₂ Binds (w.elim [] Condition.leaves) slots.flatten ∧
      List.Forall₂ Aligned f.toList slots := by
  rcases optionMapM_eq_ok.mp h with ⟨rfl, rfl⟩ | ⟨w, f, rfl, hw, rfl⟩
  · exact ⟨[], .nil, .nil⟩
  · obtain ⟨_, hemits⟩ := emits_of_translate hw
    obtain ⟨slots, hbinds, haligned⟩ := hemits.aligned
    exact ⟨[slots], by simpa using hbinds, .cons haligned .nil⟩

section SameForm

theorem SameField.field_eq {a b : String} (h : SameField a b) {f : Field} (hf : field a = .ok f) :
    field b = .ok f := by
  rw [field_eq_ok] at hf ⊢
  rw [← h, hf]

theorem resolveFields_sameForm {names names' : Option (List String)}
    (h : Option.Rel (List.Forall₂ SameField) names names') {fs : List Field}
    (hfs : resolveFields names = .ok fs) : resolveFields names' = .ok fs := by
  cases h with
  | none => exact hfs
  | some h =>
      unfold resolveFields at hfs ⊢
      dsimp only at hfs ⊢
      generalize [Field.path, Field.title] = start at hfs ⊢
      induction h generalizing start with
      | nil => exact hfs
      | cons hname _ ih =>
          rw [List.foldlM_cons] at hfs ⊢
          obtain ⟨more, hmore, hrest⟩ := bind_eq_ok.mp hfs
          obtain ⟨f, hf, hadd⟩ := bind_eq_ok.mp hmore
          rw [hname.field_eq hf, ok_bind, hadd, ok_bind]
          exact ih _ hrest

theorem orderOf_sameForm {o o' : Option Order}
    (h : Option.Rel (fun o o' => SameField o.field o'.field ∧ o.direction = o'.direction) o o')
    {x : Field × Direction} (hx : Translation.orderOf o = .ok x) :
    Translation.orderOf o' = .ok x := by
  cases h with
  | none => exact hx
  | some h =>
      obtain ⟨f, hf, hrest⟩ := bind_eq_ok.mp hx
      rw [Translation.orderOf, h.1.field_eq hf, ok_bind, ← h.2]
      exact hrest

theorem Condition.SameForm.translate {w w' : Condition} (h : w.SameForm w') {f : Fragment}
    (hf : w.translate = .ok f) : ∃ params, w'.translate = .ok ⟨f.sql, params⟩ := by
  induction h generalizing f with
  | compare op x y hfield =>
      obtain ⟨g, hg, hrest⟩ := bind_eq_ok.mp hf
      rw [Condition.translate, hfield.field_eq hg, ok_bind]
      split at hrest
      · next hcolumn =>
        cases hrest
        exact ⟨_, by rw [if_pos hcolumn]⟩
      · next hcolumn =>
        rw [if_neg hcolumn]
        cases op <;> cases hrest <;> exact ⟨_, rfl⟩
  | contains x y hfield =>
      obtain ⟨g, hg, hrest⟩ := bind_eq_ok.mp hf
      rw [Condition.translate, hfield.field_eq hg, ok_bind]
      split at hrest
      · next hcolumn =>
        cases hrest
        exact ⟨_, by rw [if_pos hcolumn]⟩
      · next hcolumn =>
        cases hrest
        exact ⟨_, by rw [if_neg hcolumn]; rfl⟩
  | logical op _ _ ihleft ihright =>
      obtain ⟨l, hl, hrest⟩ := bind_eq_ok.mp hf
      obtain ⟨r, hr, hrest⟩ := bind_eq_ok.mp hrest
      obtain ⟨params, hl'⟩ := ihleft hl
      obtain ⟨params', hr'⟩ := ihright hr
      cases hrest
      exact ⟨params ++ params', by rw [Condition.translate, hl', ok_bind, hr', ok_bind]⟩

theorem mapM_translate_sameForm {w w' : Option Condition} (h : Option.Rel Condition.SameForm w w')
    {f : Option Fragment} (hf : w.mapM Condition.translate = .ok f) :
    ∃ f', w'.mapM Condition.translate = .ok f' ∧
      f'.toList.map (·.sql) = f.toList.map (·.sql) := by
  cases h with
  | none => exact ⟨f, hf, rfl⟩
  | some h =>
      rcases optionMapM_eq_ok.mp hf with ⟨hnone, _⟩ | ⟨w, g, hsome, hw, rfl⟩
      · cases hnone
      · cases hsome
        obtain ⟨params, hw'⟩ := h.translate hw
        exact ⟨_, optionMapM_eq_ok.mpr (Or.inr ⟨_, _, rfl, hw', rfl⟩), rfl⟩

/-- The text of a statement has no other part of its fragments than their texts. -/
theorem assemble_of_sql_eq (shape : Shape) (named : List Field)
    {fragments fragments' : List Fragment} (h : fragments'.map (·.sql) = fragments.map (·.sql))
    (order : Field × Direction) (limit limit' : Nat) :
    let t := Translation.assemble shape named fragments order limit
    let t' := Translation.assemble shape named fragments' order limit'
    t' = { t with params := t'.params } := by
  have hfilter : Translation.filterText fragments' = Translation.filterText fragments := by
    cases fragments <;> cases fragments' <;> simp_all [Translation.filterText]
  simp only [Translation.assemble, hfilter]

theorem SameForm.translate {q q' : Query} (h : q.SameForm q') {limit : Nat} {t : Translation}
    (ht : q.translate limit = .ok t) (limit' : Nat) :
    ∃ params, q'.translate limit' = .ok { t with params } := by
  obtain ⟨named, f, order, hnamed, hf, horder, rfl⟩ := translate_eq_ok.mp ht
  obtain ⟨f', hf', hsql⟩ := mapM_translate_sameForm h.condition hf
  have hsource : (q'.source.toList.map sourceTest ++ f'.toList).map (·.sql) =
      (q.source.toList.map sourceTest ++ f.toList).map (·.sql) := by
    have hsame := h.source
    rw [List.map_append, List.map_append, hsql]
    cases hq : q.source <;> cases hq' : q'.source <;> simp_all [sourceTest]
  have hlater : q'.translate limit' = .ok (.assemble q.shape named
      (q'.source.toList.map sourceTest ++ f'.toList) order (q'.limit.getD limit')) :=
    translate_eq_ok.mpr ⟨named, f', order, resolveFields_sameForm h.fields hnamed, hf',
      orderOf_sameForm h.order horder, by rw [h.shape]⟩
  exact ⟨_, hlater.trans (congrArg Except.ok (assemble_of_sql_eq q.shape named hsource order _ _))⟩

end SameForm

/-- A query that is translated gives the text of any other one that differs in values and in how
fields are written. The question marks of the text stand each behind its lead: for the source, for
the conditions from left to right, one for each, and for the limit. Their values are the parameters.
-/
theorem translate_separates_values {q : Query} {defaultLimit : Nat} {t : Translation}
    (h : q.translate defaultLimit = .ok t) :
    (∀ q' defaultLimit', q.SameForm q' →
      ∃ params, q'.translate defaultLimit' = .ok { t with params }) ∧
    t.sql.toList.count '?' = t.params.length ∧
    ∃ slots, List.Forall₂ Binds (q.condition.elim [] Condition.leaves) slots ∧
      let all := q.source.toList.flatMap sourceSlots ++ slots ++
        [limitSlot (q.limit.getD defaultLimit)]
      Places t.sql.toList (all.map Slot.lead) ∧ t.params = all.map Slot.value := by
  refine ⟨fun q' defaultLimit' hsame => hsame.translate h defaultLimit', ?_⟩
  obtain ⟨named, f, order, _, hf, _, rfl⟩ := translate_eq_ok.mp h
  obtain ⟨slots, hbinds, hcondition⟩ := aligned_condition hf
  have hsource : List.Forall₂ Aligned (q.source.toList.map sourceTest)
      (q.source.toList.map sourceSlots) := by
    rw [List.forall₂_map_left_iff, List.forall₂_map_right_iff]
    exact List.forall₂_same.mpr fun path _ => aligned_sourceTest path
  have haligned := aligned_assemble q.shape named (List.rel_append hsource hcondition) order
    (q.limit.getD defaultLimit)
  rw [List.flatten_append, ← List.flatMap_def] at haligned
  exact ⟨haligned.count_eq, slots.flatten, hbinds, haligned⟩

theorem translate_separates_hostile_values :
    let q (path field : String) (value : Literal) : Query :=
      ⟨.list, none, some path,
        some (.logical .or (.compare field .eq value) (.contains "tags" value)), none, none⟩
    ∃ t params, (q "?" "path" (.string "' OR ? = '")).translate 100 = .ok t ∧
      (q "a/" "FILE.PATH" (.boolean true)).translate 7 = .ok { t with params } ∧
      t.sql.toList.count '?' = t.params.length ∧ t.params.length = 5 := by
  intro q
  have hform :
      (q "?" "path" (.string "' OR ? = '")).SameForm (q "a/" "FILE.PATH" (.boolean true)) :=
    { shape := rfl
      fields := .none
      source := rfl
      condition := .some (.logical .or (.compare .eq _ _ (by decide)) (.contains _ _ rfl))
      order := .none }
  obtain ⟨t, ht, hlength⟩ : ∃ t, (q "?" "path" (.string "' OR ? = '")).translate 100 = .ok t ∧
      t.params.length = 5 := ⟨_, rfl, rfl⟩
  obtain ⟨hsame, hcount, _⟩ := translate_separates_values ht
  obtain ⟨params, hparams⟩ := hsame _ 7 hform
  exact ⟨t, params, ht, hparams, hcount, hlength⟩

end Slipbox.Query
