import Slipbox.Proofs.Query.Emission
import Slipbox.Proofs.Query.FieldNames
import Slipbox.Query.Run

/-! When a query has no translation. Fields are named in the request, in the conditions and in the
order; a translation goes through these names from left to right and stops at the first one that
means no field, or a field that cannot be used there. What the index holds has no part in this. -/

namespace Slipbox.Query

/-- A name of a field in a query, and what it is named for. -/
inductive Mention where
  | requested (name : String)
  | compared (name : String) (op : CompareOp)
  | searched (name : String)
  | sorted (name : String)

/-- The name as it is written. -/
def Mention.name : Mention → String
  | .requested name | .compared name _ | .searched name | .sorted name => name

/-- The names in a condition from left to right. -/
def Condition.mentions : Condition → List Mention
  | .compare name op _ => [.compared name op]
  | .contains name _ => [.searched name]
  | .logical _ left right => left.mentions ++ right.mentions

/-- The names in a query: those of the requested fields, then those of the condition, then that of
the order. -/
def mentions (q : Query) : List Mention :=
  (q.fields.getD []).map .requested ++ q.condition.elim [] Condition.mentions ++
    q.order.toList.map fun o => .sorted o.field

/-- What is wrong with a name at its place. -/
inductive Offends : Mention → FieldError → Prop
  | unknown (m : Mention) (h : ∀ f : Field, ¬ f.IsNamed m.name) : Offends m (.unknown m.name)
  | unordered {name : String} {op : CompareOp} (h : Field.tags.IsNamed name) (heq : op ≠ .eq)
      (hne : op ≠ .ne) : Offends (.compared name op) (.unordered .tags op)
  | unsortable {name : String} (h : Field.tags.IsNamed name) :
      Offends (.sorted name) (.unsortable .tags)

/-- Nothing is wrong with any of the names. -/
def Faultless (ms : List Mention) : Prop :=
  ∀ m ∈ ms, ∀ e, ¬ Offends m e

/-- What is wrong with the first name that something is wrong with. -/
def FirstOffence (ms : List Mention) (e : FieldError) : Prop :=
  ∃ before m after, ms = before ++ m :: after ∧ Faultless before ∧ Offends m e

section First

variable {ms ms' : List Mention} {m : Mention} {e : FieldError}

theorem firstOffence_nil : ¬ FirstOffence [] e := by
  rintro ⟨before, m, after, h, -⟩
  simp at h

theorem firstOffence_cons :
    FirstOffence (m :: ms) e ↔ Offends m e ∨ (∀ e', ¬ Offends m e') ∧ FirstOffence ms e := by
  constructor
  · rintro ⟨before, m', after, h, hfaultless, hoffends⟩
    cases before with
    | nil =>
        cases h
        exact .inl hoffends
    | cons m before =>
        cases h
        exact .inr ⟨hfaultless m List.mem_cons_self, before, m', after, rfl,
          fun m hm => hfaultless m (List.mem_cons_of_mem _ hm), hoffends⟩
  · rintro (hoffends | ⟨hfirst, before, m', after, rfl, hfaultless, hoffends⟩)
    · exact ⟨[], m, ms, rfl, fun m hm => (List.not_mem_nil hm).elim, hoffends⟩
    · refine ⟨m :: before, m', after, rfl, fun m'' hm => ?_, hoffends⟩
      rcases List.mem_cons.mp hm with rfl | hm
      · exact hfirst
      · exact hfaultless m'' hm

theorem firstOffence_append :
    FirstOffence (ms ++ ms') e ↔ FirstOffence ms e ∨ Faultless ms ∧ FirstOffence ms' e := by
  induction ms with
  | nil => simp [firstOffence_nil, Faultless]
  | cons m ms ih =>
      have hfaultless : Faultless (m :: ms) ↔ (∀ e', ¬ Offends m e') ∧ Faultless ms := List.forall_mem_cons
      rw [List.cons_append, firstOffence_cons, firstOffence_cons, ih, hfaultless]
      grind

/-- Where anything is wrong, one of the names is the first. -/
theorem exists_firstOffence : (∃ e, FirstOffence ms e) ↔ ∃ m ∈ ms, ∃ e, Offends m e := by
  induction ms with
  | nil => simp [firstOffence_nil]
  | cons m ms ih =>
      simp only [firstOffence_cons, List.mem_cons, exists_eq_or_imp, ← ih]
      by_cases hm : ∃ e, Offends m e
      · obtain ⟨e, he⟩ := hm
        exact iff_of_true ⟨e, .inl he⟩ (.inl ⟨e, he⟩)
      · rw [not_exists] at hm
        simp [hm]

theorem faultless_of_forall_not (h : ∀ e, ¬ FirstOffence ms e) : Faultless ms := by
  intro m hm e he
  obtain ⟨first, hfirst⟩ := exists_firstOffence.mpr ⟨m, hm, e, he⟩
  exact h first hfirst

end First

/-- The computation goes through the names: it fails just where something is wrong with one of them,
and with what is wrong with the first. -/
def Checks {α : Type} (x : Except FieldError α) (ms : List Mention) : Prop :=
  ∀ e, x = .error e ↔ FirstOffence ms e

namespace Checks

variable {α β : Type} {x : Except FieldError α} {ms ms' : List Mention}

theorem ok (a : α) : Checks (.ok a) [] :=
  fun _ => iff_of_false nofun firstOffence_nil

theorem one {m : Mention} (h : ∀ e, x = .error e ↔ Offends m e) : Checks x [m] := by
  intro e
  rw [h, firstOffence_cons]
  simp [firstOffence_nil]

theorem faultless (h : Checks x ms) {a : α} (hx : x = .ok a) : Faultless ms :=
  faultless_of_forall_not fun e he => nomatch hx.symm.trans ((h e).mpr he)

theorem bind {f : α → Except FieldError β} (h : Checks x ms)
    (hf : ∀ a, x = .ok a → Checks (f a) ms') : Checks (x >>= f) (ms ++ ms') := by
  intro e
  rw [firstOffence_append]
  cases hx : x with
  | error e' =>
      have herror : FirstOffence ms e' := (h e').mp hx
      have hstops : ∀ e'', FirstOffence ms e'' ↔ e' = e'' := by
        intro e''
        rw [← h, hx, Except.error.injEq]
      have hwrong : ¬ Faultless ms := by
        obtain ⟨before, m, after, rfl, -, hm⟩ := herror
        exact fun hfaultless => hfaultless m (by simp) e' hm
      simp [hwrong, hstops, Bind.bind, Except.bind]
  | ok a =>
      have hfaultless := h.faultless hx
      have hnone : ¬ FirstOffence ms e := fun he => nomatch hx.symm.trans ((h e).mpr he)
      rw [ok_bind, hf a hx e]
      simp [hfaultless, hnone]

theorem map {f : α → β} (h : Checks x ms) : Checks (x.map f) ms := by
  intro e
  rw [← h]
  cases x <;> simp [Except.map]

end Checks

section Known

/-! A name that means a field offends by its use only. -/

variable {f : Field} {name : String} {e : FieldError}

theorem not_offends_requested (h : f.IsNamed name) : ¬ Offends (.requested name) e := by
  intro hoffends
  cases hoffends with
  | unknown _ hunknown => exact hunknown f h

theorem not_offends_searched (h : f.IsNamed name) : ¬ Offends (.searched name) e := by
  intro hoffends
  cases hoffends with
  | unknown _ hunknown => exact hunknown f h

theorem offends_compared (h : f.IsNamed name) {op : CompareOp} :
    Offends (.compared name op) e ↔ f = .tags ∧ op ≠ .eq ∧ op ≠ .ne ∧ .unordered f op = e := by
  constructor
  · rintro (⟨_, hunknown⟩ | ⟨htags, heq, hne⟩)
    · exact absurd h (hunknown f)
    · obtain rfl := h.unique htags
      exact ⟨rfl, heq, hne, rfl⟩
  · rintro ⟨rfl, heq, hne, rfl⟩
    exact .unordered h heq hne

theorem offends_sorted (h : f.IsNamed name) :
    Offends (.sorted name) e ↔ f = .tags ∧ .unsortable f = e := by
  constructor
  · rintro (⟨_, hunknown⟩ | _ | htags)
    · exact absurd h (hunknown f)
    · obtain rfl := h.unique htags
      exact ⟨rfl, rfl⟩
  · rintro ⟨rfl, rfl⟩
    exact .unsortable h

end Known

theorem isColumn_eq_false {f : Field} : f.isColumn = false ↔ f = .tags := by
  cases f <;> decide

/-- A name is looked up and then used as the field that it means. -/
theorem Checks.named {α : Type} {m : Mention} {name : String} (hm : m.name = name)
    {use : Field → Except FieldError α}
    (huse : ∀ f e, f.IsNamed name → (use f = .error e ↔ Offends m e)) :
    Checks (field name >>= use) [m] := by
  subst hm
  refine .one fun e => ?_
  cases hname : Field.ofName? m.name with
  | none =>
      have hunknown := Field.ofName?_eq_none.mp hname
      have hfield : field m.name = .error (.unknown m.name) := by
        rw [field, hname]
      rw [hfield]
      constructor
      · rintro ⟨⟩
        exact .unknown m hunknown
      · rintro (_ | htags | htags)
        · rfl
        · exact absurd htags (hunknown _)
        · exact absurd htags (hunknown _)
  | some f =>
      rw [field_eq_ok.mpr hname, ok_bind]
      exact huse f e (Field.ofName?_eq_some.mp hname)

section Parts

theorem checks_resolveFields (names : Option (List String)) :
    Checks (resolveFields names) ((names.getD []).map .requested) := by
  cases names with
  | none => exact .ok _
  | some names =>
      change Checks (names.foldlM _ [Field.path, Field.title]) (names.map .requested)
      generalize [Field.path, Field.title] = start
      induction names generalizing start with
      | nil => exact .ok start
      | cons name names ih =>
          rw [List.foldlM_cons, List.map_cons, ← List.singleton_append]
          refine Checks.bind ?_ fun fields _ => ih fields
          refine .named (m := .requested name) rfl fun f e (hf : f.IsNamed name) => ?_
          exact iff_of_false nofun (not_offends_requested hf)

theorem checks_condition (w : Condition) : Checks w.translate w.mentions := by
  induction w with
  | compare name op value =>
      refine .named (m := .compared name op) rfl fun f e (hf : f.IsNamed name) => ?_
      rw [offends_compared hf]
      cases hcolumn : f.isColumn with
      | true =>
          rw [if_pos rfl]
          refine iff_of_false nofun ?_
          rintro ⟨rfl, -⟩
          cases hcolumn
      | false =>
          obtain rfl := isColumn_eq_false.mp hcolumn
          cases op <;> simp
  | contains name value =>
      refine .named (m := .searched name) rfl fun f e (hf : f.IsNamed name) => ?_
      refine iff_of_false ?_ (not_offends_searched hf)
      split <;> exact nofun
  | logical op left right ihleft ihright =>
      refine ihleft.bind fun l _ => ?_
      rw [← List.append_nil right.mentions]
      exact ihright.bind fun r _ => .ok _

theorem checks_order (o : Option Order) :
    Checks (Translation.orderOf o) (o.toList.map fun o => .sorted o.field) := by
  cases o with
  | none => exact .ok _
  | some o =>
      refine .named (m := .sorted o.field) rfl fun f e (hf : f.IsNamed o.field) => ?_
      rw [offends_sorted hf]
      cases hcolumn : f.isColumn with
      | true =>
          rw [if_pos rfl]
          refine iff_of_false nofun ?_
          rintro ⟨rfl, -⟩
          cases hcolumn
      | false =>
          obtain rfl := isColumn_eq_false.mp hcolumn
          simp

theorem checks_optional (w : Option Condition) :
    Checks (w.mapM Condition.translate) (w.elim [] Condition.mentions) := by
  cases w with
  | none => exact .ok _
  | some w => exact (checks_condition w).map

theorem checks_translate (q : Query) (defaultLimit : Nat) :
    Checks (q.translate defaultLimit) q.mentions := by
  rw [mentions, List.append_assoc]
  refine (checks_resolveFields q.fields).bind fun named _ => ?_
  refine (checks_optional q.condition).bind fun fragment _ => ?_
  rw [← List.append_nil (q.order.toList.map _)]
  exact (checks_order q.order).bind fun order _ => .ok _

end Parts

theorem run_eq_field_error {q : Query} {ix : Index} {defaultLimit : Nat} {e : FieldError} :
    run q ix defaultLimit = .error (.field e) ↔ q.translate defaultLimit = .error e := by
  unfold run
  cases q.translate defaultLimit with
  | error e' => simp
  | ok t =>
      cases hread : Sql.Select.ofText? t.sql with
      | none => simp [hread]
      | some s => cases hrefused : s.isRefused t.params (.ofIndex ix) <;> simp [hread, hrefused]

/-- A query has no translation just where it names a field wrongly: by a name that means none, by
tags in a comparison that is neither `=` nor `!=`, or by tags as the field of the order. The error
is about the first of these names, quotes an unknown one as it is written, and is all that comes of
running the query, whatever the index holds. -/
theorem translate_fails_at_first_offence (q : Query) (defaultLimit : Nat) :
    ((∃ e, q.translate defaultLimit = .error e) ↔ ∃ m ∈ q.mentions, ∃ e, Offends m e) ∧
    (∀ e, q.translate defaultLimit = .error e ↔ FirstOffence q.mentions e) ∧
    (∀ e, q.translate defaultLimit = .error e ↔
      ∀ ix, run q ix defaultLimit = .error (.field e)) ∧
    ∀ name, (FieldError.unknown name).message = "Unknown field '" ++ name ++
      "'. Supported fields: path, title, type, created, modified, source, confidence, verified, " ++
      "tags, content, file.path, file.ctime, file.mtime, file.tags" := by
  have hchecks := checks_translate q defaultLimit
  refine ⟨?_, hchecks, fun e => ?_, fun name => ?_⟩
  · rw [← exists_firstOffence]
    exact exists_congr hchecks
  · exact ⟨fun h ix => run_eq_field_error.mpr h, fun h => run_eq_field_error.mp (h .empty)⟩
  · exact String.toList_inj.mp (by simp [FieldError.message, toString]; decide)

end Slipbox.Query
