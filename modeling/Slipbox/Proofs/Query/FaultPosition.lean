import Slipbox.Proofs.Query.Failing

/-! Where the parser finds fault. It fails neither before the tokens that it has read stop being the
beginning of a query nor after that: each optional part of the grammar, each loop and each check of
what the query has already is one reader, and the readers inherit the law from those they are made
of. -/

namespace Slipbox.Query

open Grammar

theorem Stream.Avoids.congr {s t : Stream} {k : Keyword} (h : s.Avoids k)
    (hnext : t.peek.kind = s.peek.kind) : t.Avoids k := by
  rwa [Avoids, Ne, keyword?_eq_some, hnext, ← keyword?_eq_some]

namespace Parse

variable {n : Nat} {P : List Kind → Prop}

theorem identifier_oneToken (what : Expected) :
    OneToken (fun s => s.identifier what) fun k name => k = .identifier name where
  ok := Stream.identifier_eq_ok what
  error {s e} h := by
    unfold Stream.identifier Stream.expected at h
    split at h <;> cases h
    rfl
  eof _ := by simp

theorem literal_oneToken : OneToken literal Value where
  ok {s value s'} := by
    constructor
    · intro h
      obtain ⟨k, htakes, hvalue⟩ := literal_eq_ok.mp h
      obtain ⟨rfl, hrest⟩ := htakes.uncons
      exact ⟨hvalue, Stream.takes_nil.mp hrest⟩
    · rintro ⟨hvalue, rfl⟩
      have hne : s.peek.kind ≠ .eof := fun heof => by
        rw [heof] at hvalue
        cases hvalue
      exact literal_eq_ok.mpr ⟨_, Stream.takes_advance rfl hne, hvalue⟩
  error {s e} h := by
    unfold literal Stream.expected at h
    split at h <;> cases h
    rfl
  eof _ h := nomatch h

theorem source_oneToken :
    OneToken source fun k path => k = .string path ∨ k = .identifier path where
  ok := source_eq_ok
  error {s e} h := by
    unfold source Stream.expected at h
    split at h <;> cases h
    rfl
  eof _ := by simp

theorem limit_oneToken :
    OneToken limit fun k n => ∃ x, k = .number x true ∧ x ≤ limitBound ∧ x.toUInt64.toNat = n where
  ok {s n s'} := by
    rw [limit_eq_ok]
    exact ⟨fun ⟨x, hx, hbound, hn, hs⟩ => ⟨⟨x, hx, hbound, hn⟩, hs⟩,
      fun ⟨⟨x, hx, hbound, hn⟩, hs⟩ => ⟨x, hx, hbound, hn, hs⟩⟩
  error {s e} h := by
    unfold limit Stream.expected at h
    split at h
    · split at h <;> cases h
      rfl
    · cases h
      rfl
  eof _ := by simp

theorem rparen_error {what : Expected} {s : Stream} {e : Located}
    (h : s.rparen what = .error e) : e.position = s.peek.position := by
  unfold Stream.rparen Stream.expected at h
  split at h <;> cases h
  rfl

theorem lparen_error {what : Expected} {s : Stream} {e : Located}
    (h : s.lparen what = .error e) : e.position = s.peek.position := by
  unfold Stream.lparen Stream.expected at h
  split at h <;> cases h
  rfl

theorem comma_error {what : Expected} {s : Stream} {e : Located}
    (h : s.comma what = .error e) : e.position = s.peek.position := by
  unfold Stream.comma Stream.expected at h
  split at h <;> cases h
  rfl

/-! Conditions. -/

/-- The operator of a comparison. -/
def operator (s : Stream) : Except Located (Parsed CompareOp) :=
  match s.peek.kind with
  | .operator op => .ok (op, s.advance)
  | _ => s.expected .operator

theorem operator_oneToken : OneToken operator fun k op => k = .operator op where
  ok {s op s'} := by
    unfold operator Stream.expected
    split <;> simp_all
  error {s e} h := by
    unfold operator Stream.expected at h
    split at h <;> cases h
    rfl
  eof _ := by simp

/-- The rest of a group or of a `CONTAINS` test. -/
def closing (c : Condition) (s : Stream) : Except Located (Parsed Condition) := do
  let s ← s.rparen .closing
  .ok (c, s)

theorem closing_locates (c : Condition) (hP : P []) : Locates n (fun _ => closing c) P :=
  .symbol (Stream.rparen_eq_ok _) (by simp) rparen_error hP (.of_ok fun _ => ⟨_, rfl⟩)

/-- A `CONTAINS` test behind its keyword. -/
def containment (s : Stream) : Except Located (Parsed Condition) := do
  let s ← s.lparen .openingAfterContains
  let (field, s) ← s.identifier .fieldName
  let s ← s.comma .comma
  let (value, s) ← literal s
  closing (.contains field value) s

/-- A comparison behind the name of its field. -/
def comparison (field : String) (s : Stream) : Except Located (Parsed Condition) := do
  let (op, s) ← operator s
  let (value, s) ← literal s
  .ok (.compare field op value, s)

theorem containment_locates :
    Locates n (fun _ => containment) fun ks => Viable Primary (.keyword .contains :: ks) := by
  have htest (name : String) {k : Kind} {value : Literal} (h : Value k value) :=
    Primary.contains name h
  have hempty := htest "" (.string "")
  refine .symbol (Stream.lparen_eq_ok _) (by simp) lparen_error
    (.of_append _ (by simp) hempty) ?_
  refine .bind ((identifier_oneToken _).locates (.of_append _ (by simp) hempty))
    (identifier_oneToken _).repeats ?_
  rintro _ name ⟨_, rfl, rfl⟩
  have hnamed := htest name (.string "")
  refine .symbol (Stream.comma_eq_ok _) (by simp) comma_error (.of_append _ (by simp) hnamed) ?_
  refine .bind (literal_oneToken.locates (.of_append _ (by simp) hnamed))
    literal_oneToken.repeats ?_
  rintro _ value ⟨k, rfl, hvalue⟩
  exact closing_locates _ (.of_append _ (by simp) (htest name hvalue))

theorem comparison_locates (field : String) :
    Locates n (fun _ => comparison field) fun ks => Viable Primary (.identifier field :: ks) := by
  refine .bind (operator_oneToken.locates
    (.of_append _ (by simp) (.compare field .eq (.string "")))) operator_oneToken.repeats ?_
  rintro _ op ⟨_, rfl, rfl⟩
  refine .bind (literal_oneToken.locates
    (.of_append _ (by simp) (.compare field op (.string "")))) literal_oneToken.repeats ?_
  rintro _ value _
  exact .of_ok fun _ => ⟨_, rfl⟩

section Chains

variable {op : Connective} {Item : List Kind → Condition → Prop}

theorem chainFrom_stops {item : Stream → Except Located (Parsed Condition)} {Q : Stream → Prop}
    (hitem : Sound item Item) (hQ : ∀ s c s', item s = .ok (c, s') → Q s') {fuel : Nat}
    {left c : Condition} {s s' : Stream} (hs : Q s) (hfuel : s.items.length ≤ fuel)
    (h : chainFrom op item fuel left s = .ok (c, s')) : Q s' ∧ s'.Avoids op.keyword := by
  induction fuel generalizing left s with
  | zero =>
      cases h
      refine ⟨hs, fun hkeyword => ?_⟩
      have hlength := Stream.length_pos_of_peek (Stream.keyword?_eq_some.mp hkeyword) (by simp)
      omega
  | succ fuel ih =>
      unfold chainFrom at h
      split at h
      · next hkeyword =>
        obtain ⟨⟨right, s₁⟩, hread, h⟩ := bind_eq_ok.mp h
        obtain ⟨ks, htakes, _⟩ := hitem _ _ _ hread
        have hused := Stream.length_pos_of_peek (Stream.keyword?_eq_some.mp hkeyword) (by simp)
        have hlength := htakes.length_le
        exact ih (hQ _ _ _ hread) (by omega) h
      · next hkeyword =>
        cases h
        exact ⟨hs, hkeyword⟩

theorem chain_stops {item : Stream → Except Located (Parsed Condition)} {Q : Stream → Prop}
    (hitem : Sound item Item) (hQ : ∀ s c s', item s = .ok (c, s') → Q s') {c : Condition}
    {s s' : Stream} (h : chain op item s = .ok (c, s')) : Q s' ∧ s'.Avoids op.keyword := by
  obtain ⟨⟨left, s₁⟩, hread, h⟩ := bind_eq_ok.mp h
  exact chainFrom_stops hitem hQ (hQ _ _ _ hread) (Nat.le_refl _) h

variable {item : Nat → Stream → Except Located (Parsed Condition)} {Stops : Stream → Prop}

/-- The loop fails where an item fails: a stream that begins like this one brings it there too. -/
theorem chainFrom_fails (hstops : ∀ s : Stream, s.peek.kind = .keyword op.keyword → Stops s)
    (hsound : Sound (item n) Item) (hcomplete : ∀ n, Complete (n + 1) Stops (item n) Item)
    (hitem : Locates n item (Viable Item)) {s s₁ : Stream} {ks : List Kind} {fuel : Nat}
    {left : Condition} {e : Located} (hleft : Chain op Item ks left) (htakes : s.Takes ks s₁)
    (hlength : s.items.length ≤ n) (h : chainFrom op (item n) fuel left s₁ = .error e) :
    FailsAt (fun n => chain op (item n)) (Viable (Chain op Item)) s := by
  induction fuel generalizing left s₁ ks with
  | zero => cases h
  | succ fuel ih =>
      unfold chainFrom at h
      split at h
      · next hkeyword =>
        rw [Stream.keyword?_eq_some] at hkeyword
        cases hread : item n s₁.advance with
        | error e' =>
            have hshorter := htakes.length_le
            have hused := Stream.length_pos_of_peek hkeyword (by simp)
            obtain ⟨ks', s', htakes', ⟨more, c, hmore, hderives⟩, hstuck⟩ :=
              hitem _ _ (by omega) hread
            refine ⟨_, s', htakes.append (htakes'.cons hkeyword (by simp)),
              ⟨more, .logical op left c, hmore, ?_⟩, fun m t t' ht hnext hlength => ?_⟩
            · rw [List.append_assoc, List.cons_append]
              exact .more hleft hderives
            · obtain ⟨t₁, hbefore, hafter⟩ := ht.split
              obtain ⟨hagain, hafter⟩ := hafter.uncons
              have hshorter := hbefore.length_le
              have hused := Stream.length_pos_of_peek hagain (by simp)
              obtain ⟨fuel, hfuel, hreaches⟩ := chain_reaches hstops (hcomplete m) hleft hbefore
                (by omega) (hstops _ hagain)
              obtain ⟨fuel, rfl⟩ : ∃ k, fuel = k + 1 := ⟨fuel - 1, by omega⟩
              obtain ⟨fault, hfault⟩ := hstuck m _ _ hafter hnext (by omega)
              refine ⟨fault, ?_⟩
              dsimp only
              rw [hreaches, chainFrom, if_pos (Stream.keyword?_eq_some.mpr hagain), hfault]
              rfl
        | ok read =>
            obtain ⟨right, s₂⟩ := read
            obtain ⟨ks₂, hright, hderives⟩ := hsound _ _ _ hread
            rw [hread, ok_bind] at h
            exact ih (.more hleft hderives) (htakes.append (hright.cons hkeyword (by simp))) h
      · cases h

theorem chain_locates (hstops : ∀ s : Stream, s.peek.kind = .keyword op.keyword → Stops s)
    (hsound : Sound (item n) Item) (hcomplete : ∀ n, Complete (n + 1) Stops (item n) Item)
    (hitem : Locates n item (Viable Item)) :
    Locates n (fun n => chain op (item n)) (Viable (Chain op Item)) := by
  intro s e hlength herror
  cases hread : item n s with
  | error e' =>
      refine ((hitem s e' hlength hread).mono ?_).bind
      exact fun ks ⟨more, c, hmore, hderives⟩ => ⟨more, c, hmore, .one hderives⟩
  | ok read =>
      obtain ⟨left, s₁⟩ := read
      obtain ⟨ks, htakes, hleft⟩ := hsound _ _ _ hread
      dsimp only at herror
      rw [chain, hread, ok_bind] at herror
      exact chainFrom_fails hstops hsound hcomplete hitem (.one hleft) htakes hlength herror

end Chains

theorem conditionWithin_stops {depth : Nat} {s s' : Stream} {c : Condition}
    (h : conditionWithin depth s = .ok (c, s')) : (True ∧ s'.Avoids .and) ∧ s'.Avoids .or := by
  cases depth with
  | zero => cases h
  | succ depth =>
      have hprimary := primary_sound (conditionWithin_sound depth)
      exact chain_stops (chain_sound hprimary)
        (fun _ _ _ => chain_stops hprimary fun _ _ _ _ => trivial) h

theorem conditionWithin_repeats : Repeats (fun n => conditionWithin (n + 1)) Disjunction := by
  intro n s c s' _ h
  obtain ⟨ks, htakes, hderives⟩ := conditionWithin_sound _ _ _ _ h
  obtain ⟨⟨_, hand⟩, hor⟩ := conditionWithin_stops h
  refine ⟨ks, htakes, hderives, fun m t t' ht hnext hlength => ?_⟩
  have hshorter := ht.length_le
  exact conditionWithin_complete (m + 1) t ks c t' ht (by omega) hderives
    ⟨⟨trivial, hand.congr hnext⟩, hor.congr hnext⟩

theorem group_locates
    (hinner : Locates n (fun n => conditionWithin (n + 1)) (Viable Disjunction)) :
    Locates n (fun n s => conditionWithin (n + 1) s >>= fun (c, s) => closing c s)
      fun ks => Viable Primary (.lparen :: ks) := by
  refine .bind (hinner.mono ?_) conditionWithin_repeats fun ks c hderives => ?_
  · rintro ks ⟨more, c, hmore, hderives⟩
    refine .of_append (more ++ [.rparen]) (by simpa using hmore) (a := c) ?_
    rw [List.cons_append, ← List.append_assoc]
    exact .group hderives
  · refine closing_locates c (.of_append [.rparen] (by simp) (a := c) ?_)
    rw [List.append_nil]
    exact .group hderives

theorem primary_lparen (inner : Stream → Except Located (Parsed Condition)) {s : Stream}
    (hopen : s.peek.kind = .lparen) :
    primary inner s = inner s.advance >>= fun (c, s) => closing c s := by
  simp only [primary, hopen]
  rfl

theorem primary_contains (inner : Stream → Except Located (Parsed Condition)) {s : Stream}
    (hcontains : s.peek.kind = .keyword .contains) : primary inner s = containment s.advance := by
  simp only [primary, hcontains]
  rfl

theorem primary_identifier (inner : Stream → Except Located (Parsed Condition)) {s : Stream}
    {field : String} (hname : s.peek.kind = .identifier field) :
    primary inner s = comparison field s.advance := by
  simp only [primary, hname, comparison, operator]
  cases s.advance.peek.kind <;> rfl

theorem primary_stuck (inner : Stream → Except Located (Parsed Condition)) {s : Stream}
    (hopen : s.peek.kind ≠ .lparen) (hcontains : s.peek.kind ≠ .keyword .contains)
    (hname : ∀ field, s.peek.kind ≠ .identifier field) :
    primary inner s = s.expected .condition := by
  unfold primary
  split
  · exact absurd ‹_› hopen
  · exact absurd ‹_› hcontains
  · exact absurd ‹_› (hname _)
  · rfl

theorem primary_locates
    (hinner : ∀ m, n = m + 1 → Locates m (fun n => conditionWithin (n + 1)) (Viable Disjunction)) :
    Locates n (fun n => primary (conditionWithin n)) (Viable Primary) := by
  intro s e hlength herror
  by_cases hopen : s.peek.kind = .lparen
  · exact .of_next hopen (by simp) (fun _ _ ht => primary_lparen _ ht)
      (fun m hm => group_locates (hinner m hm)) hlength herror
  by_cases hcontains : s.peek.kind = .keyword .contains
  · exact .of_next hcontains (by simp) (fun _ _ ht => primary_contains _ ht)
      (fun _ _ => containment_locates) hlength herror
  by_cases hname : ∃ field, s.peek.kind = .identifier field
  · obtain ⟨field, hname⟩ := hname
    exact .of_next hname (by simp) (fun _ _ ht => primary_identifier _ ht)
      (fun _ _ => comparison_locates field) hlength herror
  rw [not_exists] at hname
  refine .here (.of_append _ (by simp) (.compare "" .eq (.string ""))) fun _ t ht _ => ?_
  rw [← ht] at hopen hcontains hname
  exact ⟨_, primary_stuck _ hopen hcontains hname⟩

theorem conditionWithin_locates (n : Nat) :
    Locates n (fun n => conditionWithin (n + 1)) (Viable Disjunction) := by
  have hsound (n : Nat) := primary_sound (conditionWithin_sound n)
  have hcomplete (n : Nat) := primary_complete
    (fun s hclose => by simp [Stream.Avoids, Stream.keyword?, hclose]) (conditionWithin_complete n)
  have hconjunction (n : Nat) := @chain_complete _ _ .and _ _ (fun _ _ => trivial) (hcomplete n)
  have hchains {n : Nat} (hprimary : Locates n _ (Viable Primary)) :
      Locates n (fun n => conditionWithin (n + 1)) (Viable Disjunction) :=
    chain_locates
      (fun _ hor => ⟨trivial, by simp [Stream.Avoids, Stream.keyword?, hor, Connective.keyword]⟩)
      (chain_sound (hsound n)) hconjunction
      (chain_locates (fun _ _ => trivial) (hsound n) hcomplete hprimary)
  induction n with
  | zero => exact hchains (primary_locates fun m hm => by omega)
  | succ n ih => exact hchains (primary_locates fun m hm => by rwa [← Nat.succ.inj hm])

theorem condition_locates : Locates n (fun _ => condition) (Viable Disjunction) :=
  .own conditionWithin_locates

theorem condition_repeats : Repeats (fun _ => condition) Disjunction :=
  conditionWithin_repeats.own

/-! Field lists. -/

/-- The field names after the first one, as the reader of a stream. -/
def names (s : Stream) : Except Located (Parsed (List String)) :=
  (moreFields s.stop s.items).map fun (names, rest) => (names, ⟨rest, s.stop⟩)

/-- The names behind a comma. -/
def namesBehindComma (s : Stream) : Except Located (Parsed (List String)) := do
  let (name, s) ← s.identifier .fieldAfterComma
  (names s).map fun (more, s) => (name :: more, s)

theorem names_comma {s : Stream} (hcomma : s.peek.kind = .comma) :
    names s = namesBehindComma s.advance := by
  obtain ⟨items, stop⟩ := s
  match items with
  | [] => cases hcomma
  | ⟨k, p⟩ :: [] =>
      obtain rfl : k = .comma := hcomma
      rfl
  | ⟨k, p⟩ :: ⟨k', p'⟩ :: rest =>
      obtain rfl : k = .comma := hcomma
      cases k' with
      | identifier name =>
          simp only [names, namesBehindComma, moreFields]
          cases hmore : moreFields stop rest <;>
            simp [Stream.advance, Stream.identifier, Stream.peek, hmore, Except.map, bind,
              Except.bind]
      | _ => rfl

theorem names_end {s : Stream} (hcomma : s.peek.kind ≠ .comma) : names s = .ok ([], s) := by
  obtain ⟨items, stop⟩ := s
  match items with
  | [] => rfl
  | ⟨k, p⟩ :: rest =>
      cases k with
      | comma => exact absurd rfl hcomma
      | _ => rfl

theorem moreFields_stops {stop : Nat} {tokens rest : List Token} {names : List String}
    (h : moreFields stop tokens = .ok (names, rest)) :
    (rest.headD ⟨.eof, stop⟩).kind ≠ .comma := by
  fun_induction moreFields stop tokens generalizing names with
  | case1 p name p' more ih =>
      obtain ⟨⟨names, rest⟩, hmore, h⟩ := map_eq_ok.mp h
      cases h
      exact ih hmore
  | case2 => cases h
  | case3 _ _ hcomma =>
      cases h
      cases rest with
      | nil => simp
      | cons t rest => exact fun hkind => hcomma t.position rest (by rw [← hkind]; rfl)

theorem names_repeats : Repeats (fun _ => names) MoreNames := by
  intro n s found s' _ h
  obtain ⟨⟨found, rest⟩, hmore, h⟩ := map_eq_ok.mp h
  cases h
  obtain ⟨taken, hitems, hnames⟩ := moreFields_sound hmore
  refine ⟨_, ⟨taken, hitems, rfl, rfl⟩, hnames, fun m t t' ht hnext _ => ?_⟩
  obtain ⟨taken', hitems', hstop, hkinds⟩ := ht
  have hcomma : (t'.items.headD ⟨.eof, t.stop⟩).kind ≠ .comma := by
    rw [hstop]
    exact fun hkind => moreFields_stops hmore (hnext.symm.trans hkind)
  obtain ⟨items', stop'⟩ := t'
  obtain rfl : t.stop = stop' := hstop
  refine map_eq_ok.mpr ⟨(found, items'), ?_, rfl⟩
  rw [hitems']
  exact moreFields_complete hnames hkinds hcomma

theorem names_locates (n : Nat) : Locates n (fun _ => names) (Viable MoreNames) := by
  induction n using Nat.strongRecOn with
  | _ n ih =>
      intro s e hlength herror
      by_cases hcomma : s.peek.kind = .comma
      · refine .of_next hcomma (by simp) (fun _ _ ht => names_comma ht) (fun m hm => ?_) hlength
          herror
        refine .bind ((identifier_oneToken _).locates (.of_append _ (by simp) (.cons "" .nil)))
          (identifier_oneToken _).repeats ?_
        rintro _ name ⟨_, rfl, rfl⟩
        refine ((ih m (by omega)).map _).mono ?_
        exact fun ks ⟨more, found, hmore, hnames⟩ => ⟨more, _, hmore, .cons name hnames⟩
      · cases (names_end hcomma).symm.trans herror

theorem fields?_table {s : Stream} {first : String} (hfirst : s.peek.kind = .identifier first) :
    fields? .table s = (names s.advance).map fun (more, s) => (some (first :: more), s) := by
  simp only [fields?, hfirst, names]
  cases hmore : moreFields s.stop s.items.tail <;> simp [Stream.advance, hmore, Except.map]

theorem fields?_none {shape : Shape} {s : Stream}
    (h : ¬ (shape = .table ∧ ∃ first, s.peek.kind = .identifier first)) :
    fields? shape s = .ok (none, s) := by
  unfold fields?
  split
  · next first hfirst => exact absurd ⟨rfl, first, hfirst⟩ h
  · rfl

theorem fields?_locates (shape : Shape) :
    Locates n (fun _ => fields? shape) (Viable (Fields shape)) := by
  intro s e hlength herror
  by_cases hlist : shape = .table ∧ ∃ first, s.peek.kind = .identifier first
  · obtain ⟨rfl, first, hfirst⟩ := hlist
    have hrest (m : Nat) : Locates m
        (fun _ s => (names s).map fun (more, s) => (some (first :: more), s))
        fun ks => Viable (Fields .table) (.identifier first :: ks) :=
      ((names_locates m).map _).mono fun ks ⟨more, found, hmore, hnames⟩ =>
        ⟨more, _, hmore, .listed first hnames⟩
    exact .of_next hfirst (by simp) (fun _ _ ht => fields?_table ht) (fun m _ => hrest m) hlength
      herror
  · cases (fields?_none hlist).symm.trans herror

theorem fields?_repeats (shape : Shape) : Repeats (fun _ => fields? shape) (Fields shape) := by
  intro n s found s' hlength h
  dsimp only at h
  by_cases hlist : shape = .table ∧ ∃ first, s.peek.kind = .identifier first
  · obtain ⟨rfl, first, hfirst⟩ := hlist
    rw [fields?_table hfirst] at h
    obtain ⟨⟨more, s'⟩, hread, h⟩ := map_eq_ok.mp h
    cases h
    obtain ⟨ks, htakes, hnames, hagain⟩ := names_repeats _ _ _ _ (Nat.le_refl _) hread
    refine ⟨_, htakes.cons hfirst (by simp), .listed first hnames, fun m t t' ht hnext _ => ?_⟩
    obtain ⟨hpeek, hrest⟩ := ht.uncons
    exact (fields?_table hpeek).trans
      (map_eq_ok.mpr ⟨_, hagain _ _ _ hrest hnext (Nat.le_refl _), rfl⟩)
  · rw [fields?_none hlist] at h
    cases h
    refine ⟨[], Stream.takes_nil.mpr rfl, .absent shape, fun m t t' ht hnext _ => ?_⟩
    rw [Stream.takes_nil] at ht
    subst ht
    rw [← hnext] at hlist
    exact fields?_none hlist

/-! Clauses. -/

theorem order_locates :
    Locates n (fun _ => order)
      (Viable fun ks o => OneClause (.keyword .sort :: ks) (.order o)) := by
  refine .bind ((identifier_oneToken _).locates (.of_append _ (by simp) (.order "")))
    (identifier_oneToken _).repeats fun _ _ _ => .of_ok fun s => ?_
  dsimp only
  split <;> exact ⟨_, rfl⟩

theorem order_directed {s : Stream} {name : String} {d : Direction}
    (hname : s.peek.kind = .identifier name) (hword : s.advance.peek.kind = .keyword d.keyword) :
    order s = .ok (⟨name, d⟩, s.advance.advance) := by
  rw [order, (Stream.identifier_eq_ok _).mpr ⟨hname, rfl⟩, ok_bind]
  dsimp only
  rw [Stream.keyword?_eq_some.mpr hword]
  cases d <;> rfl

theorem order_bare {s : Stream} {name : String} (hname : s.peek.kind = .identifier name)
    (hword : ¬ ∃ d : Direction, s.advance.peek.kind = .keyword d.keyword) :
    order s = .ok (⟨name, .ascending⟩, s.advance) := by
  rw [order, (Stream.identifier_eq_ok _).mpr ⟨hname, rfl⟩, ok_bind]
  dsimp only
  split
  · next hasc => exact absurd ⟨.ascending, Stream.keyword?_eq_some.mp hasc⟩ hword
  · next hdesc => exact absurd ⟨.descending, Stream.keyword?_eq_some.mp hdesc⟩ hword
  · rfl

theorem order_repeats :
    Repeats (fun _ => order) fun ks o => OneClause (.keyword .sort :: ks) (.order o) := by
  intro n s o s' _ h
  dsimp only at h
  obtain ⟨⟨name, s₁⟩, hidentifier, _⟩ := bind_eq_ok.mp h
  obtain ⟨hname, _⟩ := (Stream.identifier_eq_ok _).mp hidentifier
  by_cases hword : ∃ d : Direction, s.advance.peek.kind = .keyword d.keyword
  · obtain ⟨d, hword⟩ := hword
    rw [order_directed hname hword] at h
    cases h
    refine ⟨_, (Stream.takes_advance hword (by simp)).cons hname (by simp), .directed name d,
      fun m t t' ht _ _ => ?_⟩
    obtain ⟨hname', ht⟩ := ht.uncons
    obtain ⟨hword', ht⟩ := ht.uncons
    rw [← Stream.takes_nil.mp ht]
    exact order_directed hname' hword'
  · rw [order_bare hname hword] at h
    cases h
    refine ⟨_, Stream.takes_advance hname (by simp), .order name, fun m t t' ht hnext _ => ?_⟩
    obtain ⟨hname', ht⟩ := ht.uncons
    rw [← Stream.takes_nil.mp ht] at hnext ⊢
    exact order_bare hname' (hnext ▸ hword)

theorem clause_locates {k : Keyword} (hk : k.isClause = true) :
    Locates n (fun _ => clause k) (Viable fun ks c => OneClause (.keyword k :: ks) c) := by
  unfold clause
  split
  · exact (source_oneToken.locates (.of_append _ (by simp) (.quoted ""))).map _
  · refine (condition_locates.map _).mono ?_
    exact fun ks ⟨more, c, hmore, hcondition⟩ => ⟨more, _, hmore, .condition hcondition⟩
  · refine (order_locates.map _).mono ?_
    exact fun ks ⟨more, o, hmore, horder⟩ => ⟨more, _, hmore, horder⟩
  · have hlimit : k = .limit := by cases k <;> simp_all [Keyword.isClause]
    rw [hlimit]
    exact (limit_oneToken.locates (.of_append _ (by simp) (.limit 0.0 (by decide)))).map _

theorem clause_repeats {k : Keyword} (hk : k.isClause = true) :
    Repeats (fun _ => clause k) fun ks c => c.keyword = k ∧ OneClause (.keyword k :: ks) c := by
  unfold clause
  split
  · refine source_oneToken.repeats.map _ ?_
    rintro _ path ⟨_, rfl, rfl | rfl⟩
    · exact ⟨rfl, .quoted path⟩
    · exact ⟨rfl, .named path⟩
  · exact condition_repeats.map _ fun _ _ hcondition => ⟨rfl, .condition hcondition⟩
  · exact order_repeats.map _ fun _ _ horder => ⟨rfl, horder⟩
  · refine limit_oneToken.repeats.map _ ?_
    rintro _ _ ⟨_, rfl, x, rfl, hbound, rfl⟩
    have hlimit : k = .limit := by cases k <;> simp_all [Keyword.isClause]
    rw [hlimit]
    exact ⟨rfl, .limit x hbound⟩

/-- Clauses that a query does not have yet, no two of a kind. -/
def Addable (q : Query) (ks : List Kind) (cs : List Clause) : Prop :=
  Clauses ks cs ∧ (cs.map Clause.keyword).Nodup ∧ ∀ c ∈ cs, q.has c.keyword = false

theorem addable_nil (q : Query) : Addable q [] [] :=
  ⟨.nil, .nil, by simp⟩

theorem Addable.cons {q : Query} {ks ks' : List Kind} {c : Clause} {cs : List Clause}
    (hone : OneClause ks c) (hnew : q.has c.keyword = false) (h : Addable (q.add c) ks' cs) :
    Addable q (ks ++ ks') (c :: cs) := by
  obtain ⟨hclauses, hnodup, hfree⟩ := h
  have hkept : ∀ c' ∈ cs, q.has c'.keyword = false ∧ c'.keyword ≠ c.keyword := by
    intro c' hc'
    simpa [has_add] using hfree c' hc'
  refine ⟨.cons hone hclauses, ?_, ?_⟩
  · rw [List.map_cons, List.nodup_cons]
    refine ⟨fun hmem => ?_, hnodup⟩
    obtain ⟨c', hc', hsame⟩ := List.mem_map.mp hmem
    exact (hkept c' hc').2 hsame
  · intro c' hc'
    rcases List.mem_cons.mp hc' with rfl | hc'
    · exact hnew
    · exact (hkept c' hc').1

theorem clauses_clause {q : Query} {k : Keyword} (hk : k.isClause = true) (hnew : q.has k = false)
    (n : Nat) {s : Stream} (hkeyword : s.peek.kind = .keyword k) :
    clauses (n + 1) q s = clause k s.advance >>= fun (c, s) => clauses n (q.add c) s := by
  simp only [clauses, hkeyword, hk, hnew]
  rfl

theorem clauses_stuck {q : Query} (n : Nat) {s : Stream} (heof : s.peek.kind ≠ .eof)
    (hk : ∀ k, s.peek.kind = .keyword k → k.isClause = true → q.has k = true) :
    ∃ fault, clauses (n + 1) q s = .error ⟨fault, s.peek.position⟩ := by
  unfold clauses
  dsimp only
  split
  · next h => exact absurd h heof
  · next k h =>
    split
    · exact ⟨_, rfl⟩
    · next hclause =>
      rw [if_pos (hk k h (by simpa using hclause))]
      exact ⟨_, rfl⟩
  · exact ⟨_, rfl⟩

theorem clauses_locates (n : Nat) (q : Query) :
    Locates n (fun n => clauses n q) (Viable (Addable q)) := by
  induction n generalizing q with
  | zero => intro s e _ herror; cases herror
  | succ n ih =>
      intro s e hlength herror
      by_cases heof : s.peek.kind = .eof
      · simp [clauses, heof] at herror
      by_cases hclause : ∃ k, s.peek.kind = .keyword k ∧ k.isClause = true ∧ q.has k = false
      · obtain ⟨k, hkeyword, hk, hnew⟩ := hclause
        have hrest : Locates n (fun n s => clause k s >>= fun (c, s) => clauses n (q.add c) s)
            fun ks => Viable (Addable q) (.keyword k :: ks) := by
          refine .bind ((clause_locates hk).mono ?_) (clause_repeats hk) ?_
          · rintro ks ⟨more, c, hmore, hone⟩
            obtain ⟨_, _, hkinds⟩ := keyword_of_oneClause hone
            cases hkinds
            have hcs := (addable_nil (q.add c)).cons hone hnew
            exact ⟨more, [c], hmore, by rwa [List.append_nil] at hcs⟩
          · rintro ks c ⟨rfl, hone⟩
            refine (ih (q.add c)).mono ?_
            rintro ks' ⟨more, cs, hmore, hcs⟩
            refine ⟨more, c :: cs, hmore, ?_⟩
            rw [← List.cons_append, List.append_assoc]
            exact hcs.cons hone hnew
        exact .of_next hkeyword (by simp) (fun n _ ht => clauses_clause hk hnew n ht)
          (fun m hm => Nat.succ.inj hm ▸ hrest) hlength herror
      · refine .here ⟨[], [], by simp, addable_nil q⟩ fun m t ht hlength => ?_
        rw [← ht] at heof hclause
        have hused := Stream.length_pos_of_peek rfl heof
        obtain ⟨m, rfl⟩ : ∃ m', m = m' + 1 := ⟨m - 1, by omega⟩
        refine clauses_stuck m heof fun k hkeyword hk => ?_
        cases hhas : q.has k with
        | true => rfl
        | false => exact absurd ⟨k, hkeyword, hk, hhas⟩ hclause

/-! Queries. -/

theorem derives_addAll {shape : Shape} {fieldKinds clauseKinds : List Kind}
    {fields : Option (List String)} {cs : List Clause} (hfields : Fields shape fieldKinds fields)
    (hcs : Addable { bare shape with fields } clauseKinds cs) :
    Derives (.keyword shape.keyword :: (fieldKinds ++ clauseKinds))
      (cs.foldl add { bare shape with fields }) := by
  obtain ⟨hclauses, hnodup, hfree⟩ := hcs
  obtain ⟨hshape, hnames⟩ := addAll_shape_fields cs { bare shape with fields }
  refine ⟨fieldKinds, clauseKinds, cs, by rw [hshape]; rfl, ?_, hclauses, hnodup, fun c => ?_⟩
  · rw [hshape, hnames]
    exact hfields
  · rw [carries_addAll hnodup hfree]
    cases c <;> simp [Carries, bare]

theorem query_shape {s : Stream} {shape : Shape} (hshape : s.peek.kind = .keyword shape.keyword) :
    query s = fields? shape s.advance >>= fun (fields, s) =>
      clauses s.items.length { bare shape with fields } s := by
  simp only [query, Stream.keyword?_eq_some.mpr hshape, Option.bind_some,
    ofKeyword?_eq_some.mpr rfl]

theorem query_stuck {s : Stream}
    (hshape : ¬ ∃ shape : Shape, s.peek.kind = .keyword shape.keyword) :
    query s = s.expected .shape := by
  unfold query
  split
  · rfl
  · next shape h =>
    obtain ⟨k, hk, h⟩ := Option.bind_eq_some_iff.mp h
    rw [ofKeyword?_eq_some.mp h, Stream.keyword?_eq_some] at hk
    exact absurd ⟨shape, hk⟩ hshape

theorem query_locates (n : Nat) : Locates n (fun _ => query) (Viable Derives) := by
  intro s e hlength herror
  by_cases hshape : ∃ shape : Shape, s.peek.kind = .keyword shape.keyword
  · obtain ⟨shape, hshape⟩ := hshape
    have hrest (m : Nat) : Locates m (fun _ s => fields? shape s >>= fun (fields, s) =>
        clauses s.items.length { bare shape with fields } s)
        fun ks => Viable Derives (.keyword shape.keyword :: ks) := by
      refine .bind ((fields?_locates shape).mono ?_) (fields?_repeats shape) ?_
      · rintro ks ⟨more, fields, hmore, hfields⟩
        have hderives := derives_addAll hfields (addable_nil _)
        exact ⟨more, _, hmore, by rwa [List.append_nil] at hderives⟩
      · intro ks fields hfields
        refine (Locates.own fun n => clauses_locates n { bare shape with fields }).mono ?_
        rintro ks' ⟨more, cs, hmore, hcs⟩
        have hderives := derives_addAll hfields hcs
        exact ⟨more, _, hmore, by rwa [← List.append_assoc] at hderives⟩
    exact .of_next hshape (by simp) (fun _ _ ht => query_shape ht) (fun m _ => hrest m) hlength
      herror
  · refine .here (.of_append _ (by simp) (derives_addAll (.absent .list) (addable_nil _)))
      fun _ t ht _ => ?_
    rw [← ht] at hshape
    exact ⟨_, query_stuck hshape⟩

end Parse

theorem Kind.isEof_iff {k : Kind} : k.isEof = true ↔ k = .eof := by
  cases k <;> simp [isEof]

/-- Tokens in front of the first end marker are items of the stream. -/
theorem Stream.takes_ofTokens {before after : List Token} {next : Token} {s : Stream}
    (hbefore : ∀ t ∈ before, t.kind ≠ .eof) (h : ofTokens (before ++ next :: after) = .ok s) :
    ∃ s', s.Takes (before.map Token.kind) s' ∧ s'.peek.kind = next.kind := by
  have hitems : s.items = before ++ (next :: after).takeWhile fun t => !t.kind.isEof := by
    unfold ofTokens at h
    split at h
    · cases h
    · split at h
      · cases h
        exact List.takeWhile_append_of_pos fun t ht => by
          simpa [← Bool.not_eq_true, Kind.isEof_iff] using hbefore t ht
      · cases h
  refine ⟨⟨_, s.stop⟩, ⟨before, hitems, rfl, rfl⟩, ?_⟩
  cases heof : next.kind.isEof with
  | true => simp [peek, Kind.isEof_iff.mp heof, Kind.isEof]
  | false => simp [peek, heof]

/-- The parser finds fault with the first token that makes no sense: those in front of it can be
continued to a token list that it accepts, and it accepts none that begins with those and this one.
-/
theorem fault_at_first_senseless_token {items : List Token} {marker : Token} {e : Located}
    (hitems : ∀ t ∈ items, t.kind ≠ .eof) (hmarker : marker.kind = .eof)
    (h : ofTokens (items ++ [marker]) = .error e) :
    ∃ before next after, items ++ [marker] = before ++ next :: after ∧
      e.position = next.position ∧
      (∃ more q, (∀ t ∈ more, t.kind ≠ .eof) ∧ ofTokens (before ++ more ++ [marker]) = .ok q) ∧
      ∀ more q, ofTokens (before ++ next :: more) ≠ .ok q := by
  have hstream := Stream.ofTokens_marked hitems hmarker
  rw [ofTokens, hstream, ok_bind] at h
  obtain ⟨ks, s', htakes, ⟨more, q, hmore, hderives⟩, hstuck⟩ :=
    Parse.query_locates items.length _ e (Nat.le_refl _) h
  obtain ⟨fault, hfault⟩ := hstuck items.length _ _ htakes rfl (Nat.le_refl _)
  obtain ⟨before, hbefore, hstop, rfl⟩ := htakes
  dsimp only at hbefore hstop
  have hfree : ∀ t ∈ before, t.kind ≠ .eof := fun t ht =>
    hitems t (hbefore ▸ List.mem_append_left _ ht)
  have hmore' : ∀ t ∈ more.map (Token.mk · 0), t.kind ≠ .eof := by
    intro t ht heof
    obtain ⟨k, hk, rfl⟩ := List.mem_map.mp ht
    exact hmore (heof ▸ hk)
  obtain ⟨after, hsplit⟩ : ∃ after, items ++ [marker] = before ++ s'.peek :: after := by
    cases hrest : s'.items with
    | nil =>
        refine ⟨[], ?_⟩
        rw [hbefore, hrest, List.append_nil, Stream.peek, hrest, ← hstop, ← hmarker]
        rfl
    | cons t rest =>
        refine ⟨rest ++ [marker], ?_⟩
        rw [hbefore, Stream.peek, hrest, List.append_assoc]
        rfl
  refine ⟨before, s'.peek, after, hsplit, ?_, ⟨_, q, hmore', ?_⟩, fun rest q' hq => ?_⟩
  · cases h.symm.trans hfault
    rfl
  · have hall : ∀ t ∈ before ++ more.map (Token.mk · 0), t.kind ≠ .eof := by
      intro t ht
      rcases List.mem_append.mp ht with ht | ht
      · exact hfree t ht
      · exact hmore' t ht
    rw [ofTokens, Stream.ofTokens_marked hall hmarker, ok_bind]
    refine (Parse.query_eq_ok_iff (fun t ht => hall t ht)).mpr ?_
    simpa [Function.comp_def] using hderives
  · obtain ⟨s, hs, hq⟩ := bind_eq_ok.mp hq
    obtain ⟨s'', htakes, hagain⟩ := Stream.takes_ofTokens hfree hs
    obtain ⟨fault, hfault⟩ := hstuck _ s s'' htakes hagain (Nat.le_refl _)
    cases hq.symm.trans hfault

/-- The second clause of a kind is a fault. The tokens in front of it are a query already. -/
theorem fault_at_repeated_clause :
    let items : List Token := [⟨.keyword .list, 0⟩, ⟨.keyword .limit, 5⟩, ⟨.number 3.0 true, 11⟩,
      ⟨.keyword .limit, 13⟩, ⟨.number 4.0 true, 19⟩]
    (∀ t ∈ items, t.kind ≠ .eof) ∧
      ofTokens (items ++ [⟨.eof, 20⟩]) = .error ⟨.duplicate .limit, 13⟩ ∧
      ∃ before next after, items ++ [⟨.eof, 20⟩] = before ++ next :: after ∧
        13 = next.position ∧
        (∃ more q, (∀ t ∈ more, t.kind ≠ .eof) ∧
          ofTokens (before ++ more ++ [⟨.eof, 20⟩]) = .ok q) ∧
        ∀ more q, ofTokens (before ++ next :: more) ≠ .ok q := by
  intro items
  have hitems : ∀ t ∈ items, t.kind ≠ .eof := by simp [items]
  have herror : ofTokens (items ++ [⟨.eof, 20⟩]) = .error ⟨.duplicate .limit, 13⟩ := rfl
  exact ⟨hitems, herror, fault_at_first_senseless_token hitems rfl herror⟩

end Slipbox.Query
