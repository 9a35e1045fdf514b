import Slipbox.Proofs.Except
import Slipbox.Proofs.Query.Grammar

/-! The parser accepts exactly what the grammar derives. A reader is sound if what it returns stands
for the tokens that it has used up. It is complete below a length if it reads every shorter phrase,
whatever stands behind it; for a chain of items that may not be the keyword of the chain itself, by
which a reader would go on. -/

namespace Slipbox.Query

open Grammar

variable {α : Type}

namespace Stream

/-- The tokens between two places of a stream are of these kinds. -/
def Takes (s : Stream) (ks : List Kind) (s' : Stream) : Prop :=
  ∃ taken : List Token, s.items = taken ++ s'.items ∧ s.stop = s'.stop ∧ taken.map Token.kind = ks

theorem takes_nil {s s' : Stream} : s.Takes [] s' ↔ s = s' := by
  constructor
  · rintro ⟨taken, hitems, hstop, htaken⟩
    rw [List.map_eq_nil_iff.mp htaken] at hitems
    cases s; cases s'; simp_all
  · rintro rfl
    exact ⟨[], rfl, rfl, rfl⟩

theorem Takes.append {s s' s'' : Stream} {ks ks' : List Kind} (h : s.Takes ks s')
    (h' : s'.Takes ks' s'') : s.Takes (ks ++ ks') s'' := by
  obtain ⟨taken, hitems, hstop, rfl⟩ := h
  obtain ⟨taken', hitems', hstop', rfl⟩ := h'
  exact ⟨taken ++ taken', by rw [hitems, hitems', List.append_assoc], hstop.trans hstop',
    List.map_append⟩

theorem Takes.split {s s'' : Stream} {ks ks' : List Kind} (h : s.Takes (ks ++ ks') s'') :
    ∃ s', s.Takes ks s' ∧ s'.Takes ks' s'' := by
  obtain ⟨taken, hitems, hstop, htaken⟩ := h
  obtain ⟨first, rest, rfl, hfirst, hrest⟩ := List.map_eq_append_iff.mp htaken
  exact ⟨⟨rest ++ s''.items, s.stop⟩, ⟨first, by rw [hitems, List.append_assoc], rfl, hfirst⟩,
    ⟨rest, rfl, hstop, hrest⟩⟩

theorem Takes.head {s s'' : Stream} {k : Kind} {ks : List Kind} (h : s.Takes (k :: ks) s'') :
    ∃ s', s.Takes [k] s' ∧ s'.Takes ks s'' :=
  Takes.split (List.singleton_append ▸ h)

theorem takes_advance {s : Stream} {k : Kind} (hpeek : s.peek.kind = k) (hk : k ≠ .eof) :
    s.Takes [k] s.advance := by
  obtain ⟨items, stop⟩ := s
  cases items with
  | nil => exact absurd hpeek.symm hk
  | cons t rest => exact ⟨[t], rfl, rfl, by simpa [peek] using hpeek⟩

theorem Takes.cons {s s' : Stream} {k : Kind} {ks : List Kind} (hpeek : s.peek.kind = k)
    (hk : k ≠ .eof) (h : s.advance.Takes ks s') : s.Takes (k :: ks) s' :=
  (takes_advance hpeek hk).append h

theorem Takes.uncons {s s' : Stream} {k : Kind} {ks : List Kind} (h : s.Takes (k :: ks) s') :
    s.peek.kind = k ∧ s.advance.Takes ks s' := by
  obtain ⟨taken, hitems, hstop, htaken⟩ := h
  cases taken with
  | nil => cases htaken
  | cons t rest =>
      obtain ⟨hkind, hrest⟩ := List.cons.inj htaken
      refine ⟨by simpa [peek, hitems] using hkind, rest, ?_, hstop, hrest⟩
      simp [advance, hitems]

theorem Takes.length_le {s s' : Stream} {ks : List Kind} (h : s.Takes ks s') :
    s.items.length = ks.length + s'.items.length := by
  obtain ⟨taken, hitems, _, rfl⟩ := h
  simp [hitems]

/-- The next token is not the keyword. -/
def Avoids (k : Keyword) (s : Stream) : Prop :=
  s.keyword? ≠ some k

theorem keyword?_eq_some {s : Stream} {k : Keyword} :
    s.keyword? = some k ↔ s.peek.kind = .keyword k := by
  unfold keyword?
  cases s.peek.kind <;> simp

theorem lparen_eq_ok (what : Expected) {s s' : Stream} :
    s.lparen what = .ok s' ↔ s.peek.kind = .lparen ∧ s.advance = s' := by
  unfold lparen expected
  split <;> simp_all

theorem rparen_eq_ok (what : Expected) {s s' : Stream} :
    s.rparen what = .ok s' ↔ s.peek.kind = .rparen ∧ s.advance = s' := by
  unfold rparen expected
  split <;> simp_all

theorem comma_eq_ok (what : Expected) {s s' : Stream} :
    s.comma what = .ok s' ↔ s.peek.kind = .comma ∧ s.advance = s' := by
  unfold comma expected
  split <;> simp_all

theorem identifier_eq_ok (what : Expected) {s s' : Stream} {name : String} :
    s.identifier what = .ok (name, s') ↔ s.peek.kind = .identifier name ∧ s.advance = s' := by
  unfold identifier expected
  split <;> simp_all

end Stream

/-- What the reader returns stands for the tokens that it has used up. -/
def Sound (read : Stream → Except Located (Parsed α)) (D : List Kind → α → Prop) : Prop :=
  ∀ s a s', read s = .ok (a, s') → ∃ ks, s.Takes ks s' ∧ D ks a

/-- The reader reads every phrase of fewer than `n` tokens, provided that it can stop behind it. -/
def Complete (n : Nat) (Stops : Stream → Prop) (read : Stream → Except Located (Parsed α))
    (D : List Kind → α → Prop) : Prop :=
  ∀ s ks a s', s.Takes ks s' → ks.length < n → D ks a → Stops s' → read s = .ok (a, s')

namespace Parse

theorem literal_eq_ok {s s' : Stream} {value : Literal} :
    literal s = .ok (value, s') ↔ ∃ k, s.Takes [k] s' ∧ Value k value := by
  constructor
  · intro h
    unfold literal Stream.expected at h
    split at h
    · next text hpeek =>
      cases h
      exact ⟨_, Stream.takes_advance hpeek (by simp), .string text⟩
    · next x integer hpeek =>
      cases h
      exact ⟨_, Stream.takes_advance hpeek (by simp), .number x integer⟩
    · next b hpeek =>
      cases h
      exact ⟨_, Stream.takes_advance hpeek (by simp), .boolean b⟩
    · next name hpeek =>
      cases h
      exact ⟨_, Stream.takes_advance hpeek (by simp), .word name⟩
    · cases h
  · rintro ⟨k, htakes, hvalue⟩
    obtain ⟨hpeek, hrest⟩ := htakes.uncons
    rw [Stream.takes_nil] at hrest
    subst hrest
    unfold literal
    cases hvalue <;> simp [hpeek]

variable {inner item : Stream → Except Located (Parsed Condition)}
  {Item : List Kind → Condition → Prop} {op : Connective} {n : Nat}

theorem primary_sound (hinner : Sound inner Disjunction) : Sound (primary inner) Primary := by
  intro s c s' h
  unfold primary at h
  split at h
  · next hopen =>
    obtain ⟨⟨c, s₁⟩, hread, h⟩ := bind_eq_ok.mp h
    obtain ⟨s₂, hrparen, h⟩ := bind_eq_ok.mp h
    cases h
    obtain ⟨hclose, rfl⟩ := (Stream.rparen_eq_ok _).mp hrparen
    obtain ⟨ks, htakes, hderives⟩ := hinner _ _ _ hread
    exact ⟨_, (htakes.append (Stream.takes_advance hclose (by simp))).cons hopen (by simp),
      .group hderives⟩
  · next hcontains =>
    obtain ⟨s₁, hlparen, h⟩ := bind_eq_ok.mp h
    obtain ⟨⟨name, s₂⟩, hidentifier, h⟩ := bind_eq_ok.mp h
    obtain ⟨s₃, hseparator, h⟩ := bind_eq_ok.mp h
    obtain ⟨⟨value, s₄⟩, hliteral, h⟩ := bind_eq_ok.mp h
    obtain ⟨s₅, hrparen, h⟩ := bind_eq_ok.mp h
    cases h
    obtain ⟨hopen, rfl⟩ := (Stream.lparen_eq_ok _).mp hlparen
    obtain ⟨hname, rfl⟩ := (Stream.identifier_eq_ok _).mp hidentifier
    obtain ⟨hcomma, rfl⟩ := (Stream.comma_eq_ok _).mp hseparator
    obtain ⟨k, htakes, hvalue⟩ := literal_eq_ok.mp hliteral
    obtain ⟨hclose, rfl⟩ := (Stream.rparen_eq_ok _).mp hrparen
    have hend := htakes.append (Stream.takes_advance hclose (by simp))
    exact ⟨_, (((hend.cons hcomma (by simp)).cons hname (by simp)).cons hopen (by simp)).cons
      hcontains (by simp), .contains name hvalue⟩
  · next name hname =>
    split at h
    · next op hop =>
      obtain ⟨⟨value, s₁⟩, hliteral, h⟩ := bind_eq_ok.mp h
      cases h
      obtain ⟨k, htakes, hvalue⟩ := literal_eq_ok.mp hliteral
      exact ⟨_, (htakes.cons hop (by simp)).cons hname (by simp), .compare name op hvalue⟩
    · cases h
  · cases h

theorem primary_complete {Stops : Stream → Prop}
    (hstops : ∀ s : Stream, s.peek.kind = .rparen → Stops s)
    (hinner : Complete n Stops inner Disjunction) :
    Complete (n + 1) (fun _ => True) (primary inner) Primary := by
  intro s ks c s' htakes hlength hderives _
  unfold primary
  cases hderives with
  | @group inside _ hinside =>
      obtain ⟨hopen, htakes⟩ := htakes.uncons
      obtain ⟨s₁, hfirst, hlast⟩ := htakes.split
      obtain ⟨hclose, hlast⟩ := hlast.uncons
      have hshort : inside.length < n := by
        simp only [List.length_cons, List.length_append] at hlength
        omega
      have hread := hinner _ _ _ _ hfirst hshort hinside (hstops _ hclose)
      have hrparen := (Stream.rparen_eq_ok .closing).mpr ⟨hclose, Stream.takes_nil.mp hlast⟩
      simp only [hopen, hread, hrparen, ok_bind]
  | contains name hvalue =>
      obtain ⟨hcontains, htakes⟩ := htakes.uncons
      obtain ⟨hopen, htakes⟩ := htakes.uncons
      obtain ⟨hname, htakes⟩ := htakes.uncons
      obtain ⟨hcomma, htakes⟩ := htakes.uncons
      obtain ⟨s₁, hone, hlast⟩ := htakes.head
      obtain ⟨hclose, hlast⟩ := hlast.uncons
      simp only [hcontains, (Stream.lparen_eq_ok _).mpr ⟨hopen, rfl⟩,
        (Stream.identifier_eq_ok _).mpr ⟨hname, rfl⟩, (Stream.comma_eq_ok _).mpr ⟨hcomma, rfl⟩,
        literal_eq_ok.mpr ⟨_, hone, hvalue⟩,
        (Stream.rparen_eq_ok _).mpr ⟨hclose, Stream.takes_nil.mp hlast⟩, ok_bind]
  | compare name op hvalue =>
      obtain ⟨hname, htakes⟩ := htakes.uncons
      obtain ⟨hop, htakes⟩ := htakes.uncons
      simp only [hname, hop, literal_eq_ok.mpr ⟨_, htakes, hvalue⟩, ok_bind]

theorem chainFrom_sound (hitem : Sound item Item) {fuel : Nat} {left c : Condition}
    {s s' : Stream} {ks : List Kind} (hleft : Chain op Item ks left)
    (h : chainFrom op item fuel left s = .ok (c, s')) :
    ∃ ks', s.Takes ks' s' ∧ Chain op Item (ks ++ ks') c := by
  induction fuel generalizing left s ks with
  | zero =>
      cases h
      exact ⟨[], Stream.takes_nil.mpr rfl, by simpa using hleft⟩
  | succ fuel ih =>
      unfold chainFrom at h
      split at h
      · next hkeyword =>
        obtain ⟨⟨right, s₁⟩, hread, h⟩ := bind_eq_ok.mp h
        obtain ⟨ks₁, htakes, hright⟩ := hitem _ _ _ hread
        obtain ⟨ks₂, hrest, hchain⟩ := ih (.more hleft hright) h
        refine ⟨.keyword op.keyword :: ks₁ ++ ks₂,
          (htakes.cons (Stream.keyword?_eq_some.mp hkeyword) (by simp)).append hrest, ?_⟩
        simpa using hchain
      · cases h
        exact ⟨[], Stream.takes_nil.mpr rfl, by simpa using hleft⟩

theorem chain_sound (hitem : Sound item Item) : Sound (chain op item) (Chain op Item) := by
  intro s c s' h
  obtain ⟨⟨first, s₁⟩, hread, h⟩ := bind_eq_ok.mp h
  obtain ⟨ks, htakes, hfirst⟩ := hitem _ _ _ hread
  obtain ⟨ks', hrest, hchain⟩ := chainFrom_sound hitem (.one hfirst) h
  exact ⟨ks ++ ks', htakes.append hrest, hchain⟩

/-- A chain that has been read leaves the loop in front of what follows, with fuel to go on. -/
theorem chain_reaches {Stops : Stream → Prop}
    (hstops : ∀ s : Stream, s.peek.kind = .keyword op.keyword → Stops s)
    (hitem : Complete n Stops item Item) {ks : List Kind} {c : Condition}
    (hchain : Chain op Item ks c) {s s' : Stream} (htakes : s.Takes ks s') (hlength : ks.length < n)
    (hend : Stops s') :
    ∃ fuel, s'.items.length ≤ fuel ∧ chain op item s = chainFrom op item fuel c s' := by
  induction hchain generalizing s' with
  | one hfirst =>
      refine ⟨s'.items.length, Nat.le_refl _, ?_⟩
      simp [chain, hitem _ _ _ _ htakes hlength hfirst hend, bind, Except.bind]
  | more hleft hright ih =>
      obtain ⟨s₁, hbefore, hafter⟩ := htakes.split
      obtain ⟨hkeyword, hafter⟩ := hafter.uncons
      simp only [List.length_append, List.length_cons] at hlength
      obtain ⟨fuel, hfuel, hread⟩ := ih hbefore (by omega) (hstops _ hkeyword)
      have hused := (hafter.cons hkeyword (by simp)).length_le
      simp only [List.length_cons] at hused
      obtain ⟨fuel, rfl⟩ : ∃ m, fuel = m + 1 := ⟨fuel - 1, by omega⟩
      refine ⟨fuel, by omega, ?_⟩
      rw [hread, chainFrom, if_pos (Stream.keyword?_eq_some.mpr hkeyword),
        hitem _ _ _ _ hafter (by omega) hright hend]
      rfl

theorem chain_complete {Stops : Stream → Prop}
    (hstops : ∀ s : Stream, s.peek.kind = .keyword op.keyword → Stops s)
    (hitem : Complete n Stops item Item) :
    Complete n (fun s => Stops s ∧ s.Avoids op.keyword) (chain op item) (Chain op Item) := by
  intro s ks c s' htakes hlength hchain hend
  obtain ⟨fuel, _, hread⟩ := chain_reaches hstops hitem hchain htakes hlength hend.1
  rw [hread]
  cases fuel with
  | zero => rfl
  | succ fuel => rw [chainFrom, if_neg hend.2]

theorem conditionWithin_sound (depth : Nat) : Sound (conditionWithin depth) Disjunction := by
  induction depth with
  | zero => intro s c s' h; cases h
  | succ depth ih => exact chain_sound (chain_sound (primary_sound ih))

/-- Every level of parentheses is two tokens, so a condition nests less deep than it is long. -/
theorem conditionWithin_complete (depth : Nat) :
    Complete depth (fun s => (True ∧ s.Avoids .and) ∧ s.Avoids .or) (conditionWithin depth)
      Disjunction := by
  induction depth with
  | zero => intro s ks c s' _ hlength; omega
  | succ depth ih =>
      have hprimary := primary_complete
        (fun s hclose => by simp [Stream.Avoids, Stream.keyword?, hclose]) ih
      have hconjunction := @chain_complete _ _ .and _ _ (fun _ _ => trivial) hprimary
      exact chain_complete
        (fun s hor => ⟨trivial, by simp [Stream.Avoids, Stream.keyword?, hor, Connective.keyword]⟩)
        hconjunction

theorem moreFields_sound {stop : Nat} {tokens rest : List Token} {names : List String}
    (h : moreFields stop tokens = .ok (names, rest)) :
    ∃ taken, tokens = taken ++ rest ∧ MoreNames (taken.map Token.kind) names := by
  fun_induction moreFields stop tokens generalizing names with
  | case1 p name p' more ih =>
      obtain ⟨⟨names, rest⟩, hmore, h⟩ := map_eq_ok.mp h
      cases h
      obtain ⟨taken, rfl, hnames⟩ := ih hmore
      exact ⟨⟨.comma, p⟩ :: ⟨.identifier name, p'⟩ :: taken, rfl, .cons name hnames⟩
  | case2 => cases h
  | case3 =>
      cases h
      exact ⟨[], rfl, .nil⟩

theorem moreFields_complete {stop : Nat} {ks : List Kind} {names : List String}
    (hnames : MoreNames ks names) {taken rest : List Token} (htaken : taken.map Token.kind = ks)
    (hrest : (rest.headD ⟨.eof, stop⟩).kind ≠ .comma) :
    moreFields stop (taken ++ rest) = .ok (names, rest) := by
  induction hnames generalizing taken with
  | nil =>
      rw [List.map_eq_nil_iff.mp htaken, List.nil_append]
      unfold moreFields
      split
      · exact absurd rfl hrest
      · exact absurd rfl hrest
      · rfl
  | cons name _ ih =>
      match taken, htaken with
      | ⟨_, p⟩ :: ⟨_, p'⟩ :: taken, htaken =>
          simp only [List.map_cons, List.cons.injEq] at htaken
          obtain ⟨rfl, rfl, htaken⟩ := htaken
          rw [List.cons_append, List.cons_append, moreFields, ih htaken]
          rfl

/-- The stream is at its end or at the keyword of a clause. -/
def AtClause (s : Stream) : Prop :=
  s.peek.kind = .eof ∨ ∃ k : Keyword, k.isClause = true ∧ s.peek.kind = .keyword k

theorem AtClause.avoids {s : Stream} (hs : AtClause s) {k : Keyword} (hk : k.isClause = false) :
    s.Avoids k := by
  intro hnext
  rw [Stream.keyword?_eq_some] at hnext
  rcases hs with heof | ⟨k', hk', hkeyword⟩
  · rw [heof] at hnext
    cases hnext
  · rw [hkeyword] at hnext
    cases hnext
    rw [hk] at hk'
    cases hk'

theorem fields?_sound {shape : Shape} {s s' : Stream} {names : Option (List String)}
    (h : fields? shape s = .ok (names, s')) : ∃ ks, s.Takes ks s' ∧ Fields shape ks names := by
  unfold fields? at h
  split at h
  · next first hfirst =>
    obtain ⟨⟨more, rest⟩, hmore, h⟩ := map_eq_ok.mp h
    cases h
    obtain ⟨taken, htaken, hnames⟩ := moreFields_sound hmore
    have hrest : s.advance.Takes (taken.map Token.kind) ⟨rest, s.stop⟩ := ⟨taken, htaken, rfl, rfl⟩
    exact ⟨_, hrest.cons hfirst (by simp), .listed first hnames⟩
  · cases h
    exact ⟨[], Stream.takes_nil.mpr rfl, .absent _⟩

theorem fields?_complete {shape : Shape} {s s' : Stream} {ks : List Kind}
    {names : Option (List String)} (htakes : s.Takes ks s') (hfields : Fields shape ks names)
    (hend : AtClause s') : fields? shape s = .ok (names, s') := by
  unfold fields?
  cases hfields with
  | absent =>
      rw [Stream.takes_nil.mp htakes]
      split
      · next first hfirst =>
        rcases hend with heof | ⟨k, _, hk⟩
        · rw [heof] at hfirst
          cases hfirst
        · rw [hk] at hfirst
          cases hfirst
      · rfl
  | listed first hnames =>
      obtain ⟨hfirst, taken, htaken, hstop, hkinds⟩ := htakes.uncons
      have hcomma : (s'.items.headD ⟨.eof, s.stop⟩).kind ≠ .comma := by
        have hpeek : s'.items.headD ⟨.eof, s.stop⟩ = s'.peek := by
          rw [Stream.peek, ← hstop]
          rfl
        rw [hpeek]
        rcases hend with heof | ⟨k, _, hk⟩
        · simp [heof]
        · simp [hk]
      have hread := moreFields_complete hnames hkinds hcomma
      simp only [hfirst, show s.items.tail = taken ++ s'.items from htaken, hread, Except.map]
      obtain ⟨items, stop⟩ := s'
      rw [show s.stop = stop from hstop]

theorem source_eq_ok {s s' : Stream} {path : String} :
    source s = .ok (path, s') ↔
      (s.peek.kind = .string path ∨ s.peek.kind = .identifier path) ∧ s.advance = s' := by
  unfold source Stream.expected
  split <;> simp_all

theorem order_eq_ok {s s' : Stream} {o : Order} (h : order s = .ok (o, s')) :
    ∃ ks, s.Takes ks s' ∧ OneClause (.keyword .sort :: ks) (.order o) := by
  obtain ⟨⟨name, s₁⟩, hname, h⟩ := bind_eq_ok.mp h
  obtain ⟨hidentifier, rfl⟩ := (Stream.identifier_eq_ok _).mp hname
  have hone := Stream.takes_advance hidentifier (by simp)
  dsimp only at h
  split at h
  · next hasc =>
    cases h
    have hword := Stream.takes_advance (Stream.keyword?_eq_some.mp hasc) (by simp)
    exact ⟨_, hone.append hword, .directed name .ascending⟩
  · next hdesc =>
    cases h
    have hword := Stream.takes_advance (Stream.keyword?_eq_some.mp hdesc) (by simp)
    exact ⟨_, hone.append hword, .directed name .descending⟩
  · cases h
    exact ⟨_, hone, .order name⟩

theorem limit_eq_ok {s s' : Stream} {n : Nat} :
    limit s = .ok (n, s') ↔
      ∃ x, s.peek.kind = .number x true ∧ x ≤ limitBound ∧ x.toUInt64.toNat = n ∧
        s.advance = s' := by
  unfold limit Stream.expected
  split
  · next x hx => split <;> simp_all
  · simp_all

theorem clause_sound {k : Keyword} (hk : k.isClause = true) {s s' : Stream} {c : Clause}
    (h : clause k s = .ok (c, s')) :
    c.keyword = k ∧ ∃ ks, s.Takes ks s' ∧ OneClause (.keyword k :: ks) c := by
  unfold clause at h
  split at h
  · obtain ⟨⟨path, s₁⟩, hread, h⟩ := map_eq_ok.mp h
    cases h
    obtain ⟨hpath | hpath, rfl⟩ := source_eq_ok.mp hread
    · exact ⟨rfl, _, Stream.takes_advance hpath (by simp), .quoted path⟩
    · exact ⟨rfl, _, Stream.takes_advance hpath (by simp), .named path⟩
  · obtain ⟨⟨c, s₁⟩, hread, h⟩ := map_eq_ok.mp h
    cases h
    obtain ⟨ks, htakes, hderives⟩ := conditionWithin_sound _ _ _ _ hread
    exact ⟨rfl, ks, htakes, .condition hderives⟩
  · obtain ⟨⟨o, s₁⟩, hread, h⟩ := map_eq_ok.mp h
    cases h
    exact ⟨rfl, order_eq_ok hread⟩
  · next hfrom hwhere hsort =>
    obtain ⟨⟨n, s₁⟩, hread, h⟩ := map_eq_ok.mp h
    cases h
    obtain ⟨x, hx, hbound, rfl, rfl⟩ := limit_eq_ok.mp hread
    have hlimit : k = .limit := by cases k <;> simp_all [Keyword.isClause]
    rw [hlimit]
    exact ⟨rfl, _, Stream.takes_advance hx (by simp), .limit x hbound⟩

theorem clause_complete {k : Keyword} {s s' : Stream} {ks : List Kind} {c : Clause}
    (htakes : s.Takes ks s') (hclause : OneClause (.keyword k :: ks) c) (hend : AtClause s') :
    clause k s = .ok (c, s') := by
  cases hclause with
  | quoted path =>
      obtain ⟨hpath, hrest⟩ := htakes.uncons
      exact map_eq_ok.mpr ⟨_, source_eq_ok.mpr ⟨.inl hpath, Stream.takes_nil.mp hrest⟩, rfl⟩
  | named path =>
      obtain ⟨hpath, hrest⟩ := htakes.uncons
      exact map_eq_ok.mpr ⟨_, source_eq_ok.mpr ⟨.inr hpath, Stream.takes_nil.mp hrest⟩, rfl⟩
  | condition hcondition =>
      have hlength := htakes.length_le
      have hread := conditionWithin_complete (s.items.length + 1) _ _ _ _ htakes (by omega)
        hcondition ⟨⟨trivial, hend.avoids rfl⟩, hend.avoids rfl⟩
      exact map_eq_ok.mpr ⟨_, hread, rfl⟩
  | order name =>
      obtain ⟨hname, hrest⟩ := htakes.uncons
      rw [Stream.takes_nil] at hrest
      have hread : order s = .ok (⟨name, .ascending⟩, s') := by
        rw [order, (Stream.identifier_eq_ok _).mpr ⟨hname, hrest⟩, ok_bind]
        dsimp only
        split
        · next hasc => exact absurd hasc (hend.avoids rfl)
        · next hdesc => exact absurd hdesc (hend.avoids rfl)
        · rfl
      exact map_eq_ok.mpr ⟨_, hread, rfl⟩
  | directed name d =>
      obtain ⟨hname, hrest⟩ := htakes.uncons
      obtain ⟨hword, hlast⟩ := hrest.uncons
      have hend := Stream.takes_nil.mp hlast
      have hread : order s = .ok (⟨name, d⟩, s') := by
        rw [order, (Stream.identifier_eq_ok _).mpr ⟨hname, rfl⟩, ok_bind]
        cases d <;> simp [Stream.keyword?_eq_some.mpr hword, Direction.keyword, hend]
      exact map_eq_ok.mpr ⟨_, hread, rfl⟩
  | limit x hbound =>
      obtain ⟨hx, hrest⟩ := htakes.uncons
      exact map_eq_ok.mpr
        ⟨_, limit_eq_ok.mpr ⟨x, hx, hbound, rfl, Stream.takes_nil.mp hrest⟩, rfl⟩

end Parse

/-! Queries as collections of clauses. -/

theorem carries_add (q : Query) (c d : Clause) :
    Carries (q.add c) d ↔ d = c ∨ Carries q d ∧ d.keyword ≠ c.keyword := by
  cases c <;> cases d <;> simp [Carries, add, Clause.keyword, eq_comm]

theorem has_add (q : Query) (c : Clause) (k : Keyword) :
    (q.add c).has k = (q.has k || decide (k = c.keyword)) := by
  cases c <;> cases k <;> simp [has, add, Clause.keyword]

theorem keyword_of_carries {q : Query} {c : Clause} (h : Carries q c) : q.has c.keyword = true := by
  cases c <;> simp_all [Carries, has, Clause.keyword]

theorem carries_addAll {cs : List Clause} {q : Query} (hnodup : (cs.map Clause.keyword).Nodup)
    (hfree : ∀ c ∈ cs, q.has c.keyword = false) (d : Clause) :
    Carries (cs.foldl add q) d ↔ Carries q d ∨ d ∈ cs := by
  induction cs generalizing q with
  | nil => simp
  | cons c cs ih =>
      rw [List.map_cons, List.nodup_cons] at hnodup
      obtain ⟨hfresh, hnodup⟩ := hnodup
      have hfree' : ∀ c' ∈ cs, (q.add c).has c'.keyword = false := by
        intro c' hc'
        have hne : c'.keyword ≠ c.keyword := fun h => hfresh (h ▸ List.mem_map_of_mem hc')
        simp [has_add, hfree c' (List.mem_cons_of_mem _ hc'), hne]
      have hkept : Carries q d → d.keyword ≠ c.keyword := fun hcarries hsame => by
        have hhas := keyword_of_carries hcarries
        rw [hsame, hfree c List.mem_cons_self] at hhas
        cases hhas
      rw [List.foldl_cons, ih hnodup hfree', carries_add, List.mem_cons]
      constructor
      · rintro ((rfl | hcarries) | hmem)
        · exact Or.inr (Or.inl rfl)
        · exact Or.inl hcarries.1
        · exact Or.inr (Or.inr hmem)
      · rintro (hcarries | rfl | hmem)
        · exact Or.inl (Or.inr ⟨hcarries, hkept hcarries⟩)
        · exact Or.inl (Or.inl rfl)
        · exact Or.inr hmem

theorem addAll_shape_fields (cs : List Clause) (q : Query) :
    (cs.foldl add q).shape = q.shape ∧ (cs.foldl add q).fields = q.fields := by
  induction cs generalizing q with
  | nil => exact ⟨rfl, rfl⟩
  | cons c cs ih =>
      rw [List.foldl_cons, (ih _).1, (ih _).2]
      cases c <;> exact ⟨rfl, rfl⟩

theorem eq_of_carries {q q' : Query} (hshape : q.shape = q'.shape) (hfields : q.fields = q'.fields)
    (hcarries : ∀ c, Carries q c ↔ Carries q' c) : q = q' := by
  have hsource : q.source = q'.source := Option.ext fun path => hcarries (.source path)
  have hcondition : q.condition = q'.condition := Option.ext fun c => hcarries (.condition c)
  have horder : q.order = q'.order := Option.ext fun o => hcarries (.order o)
  have hlimit : q.limit = q'.limit := Option.ext fun n => hcarries (.limit n)
  cases q
  cases q'
  simp_all

theorem keyword_of_oneClause {ks : List Kind} {c : Clause} (h : OneClause ks c) :
    c.keyword.isClause = true ∧ ∃ ks', ks = .keyword c.keyword :: ks' := by
  cases h <;> exact ⟨rfl, _, rfl⟩

namespace Stream

theorem takes_all (s : Stream) : s.Takes (s.items.map Token.kind) ⟨[], s.stop⟩ :=
  ⟨s.items, by simp, rfl, rfl⟩

theorem Takes.kinds {s s' : Stream} {ks : List Kind} (h : s.Takes ks s') :
    s.items.map Token.kind = ks ++ s'.items.map Token.kind := by
  obtain ⟨taken, hitems, _, rfl⟩ := h
  rw [hitems, List.map_append]

/-- The end marker stands behind the items only. -/
def Marked (s : Stream) : Prop :=
  ∀ t ∈ s.items, t.kind ≠ .eof

theorem Marked.of_takes {s s' : Stream} {ks : List Kind} (hs : s.Marked) (h : s.Takes ks s') :
    s'.Marked := by
  obtain ⟨taken, hitems, _, _⟩ := h
  intro t ht
  exact hs t (hitems ▸ List.mem_append_right _ ht)

theorem Marked.items_eq_nil {s : Stream} (hs : s.Marked) (heof : s.peek.kind = .eof) :
    s.items = [] := by
  cases hitems : s.items with
  | nil => rfl
  | cons t rest =>
      have ht : s.peek = t := by simp [peek, hitems]
      exact absurd (ht ▸ heof) (hs t (hitems ▸ List.mem_cons_self))

end Stream

namespace Parse

theorem clauses_sound {fuel : Nat} {q q' : Query} {s : Stream} (hs : s.Marked)
    (hfuel : s.items.length ≤ fuel) (h : clauses fuel q s = .ok q') :
    ∃ cs, Clauses (s.items.map Token.kind) cs ∧ (cs.map Clause.keyword).Nodup ∧
      (∀ c ∈ cs, q.has c.keyword = false) ∧ q' = cs.foldl add q := by
  induction fuel generalizing q s with
  | zero =>
      cases h
      rw [List.length_eq_zero_iff.mp (Nat.le_zero.mp hfuel)]
      exact ⟨[], .nil, .nil, by simp, rfl⟩
  | succ fuel ih =>
      unfold clauses at h
      dsimp only at h
      split at h
      · next heof =>
        cases h
        rw [hs.items_eq_nil heof]
        exact ⟨[], .nil, .nil, by simp, rfl⟩
      · next k hkeyword =>
        split at h
        · cases h
        · next hclause =>
          split at h
          · cases h
          · next hnew =>
            obtain ⟨⟨c, s₁⟩, hread, hgo⟩ := bind_eq_ok.mp h
            obtain ⟨rfl, ks, htakes, hone⟩ := clause_sound (by simpa using hclause) hread
            have hused := htakes.cons hkeyword (by simp)
            have hlength := hused.length_le
            simp only [List.length_cons] at hlength
            obtain ⟨cs, hmore, hnodup, hfree, hq⟩ := ih (hs.of_takes hused) (by omega) hgo
            have hkept : ∀ c' ∈ cs, q.has c'.keyword = false ∧ c'.keyword ≠ c.keyword := by
              intro c' hc'
              simpa [has_add] using hfree c' hc'
            refine ⟨c :: cs, hused.kinds ▸ .cons hone hmore, ?_, ?_, hq⟩
            · rw [List.map_cons, List.nodup_cons]
              refine ⟨fun hmem => ?_, hnodup⟩
              obtain ⟨c', hc', hsame⟩ := List.mem_map.mp hmem
              exact (hkept c' hc').2 hsame
            · intro c' hc'
              rcases List.mem_cons.mp hc' with rfl | hc'
              · simpa using hnew
              · exact (hkept c' hc').1
      · cases h

theorem atClause_of_clauses {s : Stream} {ks : List Kind} {cs : List Clause} {stop : Nat}
    (htakes : s.Takes ks ⟨[], stop⟩) (hclauses : Clauses ks cs) : AtClause s := by
  cases hclauses with
  | nil =>
      rw [Stream.takes_nil.mp htakes]
      exact Or.inl rfl
  | cons hone _ =>
      obtain ⟨hclause, ks', rfl⟩ := keyword_of_oneClause hone
      exact Or.inr ⟨_, hclause, htakes.uncons.1⟩

theorem clauses_complete {ks : List Kind} {cs : List Clause} (hclauses : Clauses ks cs)
    {fuel stop : Nat} {q : Query} {s : Stream} (htakes : s.Takes ks ⟨[], stop⟩)
    (hfuel : ks.length ≤ fuel) (hnodup : (cs.map Clause.keyword).Nodup)
    (hfree : ∀ c ∈ cs, q.has c.keyword = false) : clauses fuel q s = .ok (cs.foldl add q) := by
  induction hclauses generalizing fuel q s with
  | nil =>
      rw [Stream.takes_nil.mp htakes]
      cases fuel <;> rfl
  | @cons ks ks' c cs hone hmore ih =>
      obtain ⟨s₁, hfirst, hrest⟩ := htakes.split
      obtain ⟨hclause, ks, rfl⟩ := keyword_of_oneClause hone
      obtain ⟨hkeyword, hbody⟩ := hfirst.uncons
      rw [List.map_cons, List.nodup_cons] at hnodup
      simp only [List.length_append, List.length_cons] at hfuel
      obtain ⟨fuel, rfl⟩ : ∃ m, fuel = m + 1 := ⟨fuel - 1, by omega⟩
      have hread := clause_complete hbody hone (atClause_of_clauses hrest hmore)
      have hfree' : ∀ c' ∈ cs, (q.add c).has c'.keyword = false := by
        intro c' hc'
        have hne : c'.keyword ≠ c.keyword := fun h => hnodup.1 (h ▸ List.mem_map_of_mem hc')
        simp [has_add, hfree c' (List.mem_cons_of_mem _ hc'), hne]
      have hgo : clauses fuel (q.add c) s₁ = .ok (cs.foldl add (q.add c)) :=
        ih hrest (by omega) hnodup.2 hfree'
      simp [clauses, hkeyword, hclause, hfree c List.mem_cons_self, hread, hgo, ok_bind]

theorem ofKeyword?_eq_some {k : Keyword} {shape : Shape} :
    Shape.ofKeyword? k = some shape ↔ k = shape.keyword := by
  cases k <;> cases shape <;> simp [Shape.ofKeyword?, Shape.keyword]

theorem query_eq_ok_iff {s : Stream} (hs : s.Marked) {q : Query} :
    query s = .ok q ↔ Derives (s.items.map Token.kind) q := by
  constructor
  · intro h
    unfold query at h
    split at h
    · cases h
    · next shape hshape =>
      obtain ⟨k, hk, hshape⟩ := Option.bind_eq_some_iff.mp hshape
      rw [ofKeyword?_eq_some.mp hshape, Stream.keyword?_eq_some] at hk
      obtain ⟨⟨fields, s₁⟩, hread, hgo⟩ := bind_eq_ok.mp h
      obtain ⟨ks, htakes, hfields⟩ := fields?_sound hread
      have hused := htakes.cons hk (by simp)
      obtain ⟨cs, hclauses, hnodup, hfree, rfl⟩ :=
        clauses_sound (hs.of_takes hused) (Nat.le_refl _) hgo
      obtain ⟨hshape, hnames⟩ := addAll_shape_fields cs { bare shape with fields }
      refine ⟨ks, _, cs, ?_, ?_, hclauses, hnodup, ?_⟩
      · rw [hshape, hused.kinds]
        rfl
      · rw [hshape, hnames]
        exact hfields
      · intro c
        rw [carries_addAll hnodup hfree]
        cases c <;> simp [Carries, bare]
  · rintro ⟨fieldKinds, clauseKinds, cs, hkinds, hfields, hclauses, hnodup, hcarries⟩
    have htakes := s.takes_all
    rw [hkinds] at htakes
    obtain ⟨hk, hrest⟩ := htakes.uncons
    obtain ⟨s₁, hfirst, hlast⟩ := hrest.split
    have hread := fields?_complete hfirst hfields (atClause_of_clauses hlast hclauses)
    have hfree : ∀ c ∈ cs, { bare q.shape with fields := q.fields }.has c.keyword = false := by
      intro c _
      cases c <;> rfl
    have hgo := clauses_complete hclauses hlast (Nat.le_of_eq hlast.length_le.symm) hnodup hfree
    have hq : cs.foldl add { bare q.shape with fields := q.fields } = q := by
      obtain ⟨hshape, hnames⟩ := addAll_shape_fields cs { bare q.shape with fields := q.fields }
      refine eq_of_carries hshape hnames fun c => ?_
      rw [carries_addAll hnodup hfree, hcarries]
      cases c <;> simp [Carries, bare]
    simp only [query, Stream.keyword?_eq_some.mpr hk, Option.bind_some,
      ofKeyword?_eq_some.mpr rfl, hread, ok_bind]
    rw [hgo, hq]

end Parse

/-- The items of a stream stand in front of its end marker. -/
theorem Stream.ofTokens_marked {items : List Token} {marker : Token}
    (hitems : ∀ t ∈ items, t.kind ≠ .eof) (hmarker : marker.kind = .eof) :
    Stream.ofTokens (items ++ [marker]) = .ok ⟨items, marker.position⟩ := by
  have htake : (items ++ [marker]).takeWhile (fun t => !t.kind.isEof) = items := by
    rw [List.takeWhile_append_of_pos]
    · simp [hmarker, Kind.isEof]
    · intro t ht
      have hkind := hitems t ht
      cases hk : t.kind <;> simp_all [Kind.isEof]
  have hend : marker.kind.isEof = true := by rw [hmarker]; rfl
  simp only [Stream.ofTokens, List.getLast?_concat, hend, if_true, htake, List.drop_left,
    List.headD_cons]

/-- Of the token lists that end with the only end marker in them, the parser accepts exactly those
that the grammar derives a query from, and returns that query: there is only one. -/
theorem ofTokens_accepts_derivable {items : List Token} {marker : Token}
    (hitems : ∀ t ∈ items, t.kind ≠ .eof) (hmarker : marker.kind = .eof) :
    (∀ q, ofTokens (items ++ [marker]) = .ok q ↔ Derives (items.map Token.kind) q) ∧
    (∀ q q', Derives (items.map Token.kind) q → Derives (items.map Token.kind) q' → q = q') ∧
    ((¬ ∃ q, Derives (items.map Token.kind) q) → ∃ e, ofTokens (items ++ [marker]) = .error e) := by
  have hstream := Stream.ofTokens_marked hitems hmarker
  have haccepts : ∀ q, ofTokens (items ++ [marker]) = .ok q ↔
      Derives (items.map Token.kind) q := by
    intro q
    rw [ofTokens, hstream, ok_bind]
    exact Parse.query_eq_ok_iff (s := ⟨items, marker.position⟩) hitems
  refine ⟨haccepts, fun q q' hq hq' => ?_, fun hnone => ?_⟩
  · exact Except.ok.inj (((haccepts q).mpr hq).symm.trans ((haccepts q').mpr hq'))
  · cases hread : ofTokens (items ++ [marker]) with
    | error e => exact ⟨e, rfl⟩
    | ok q => exact absurd ⟨q, (haccepts q).mp hread⟩ hnone

/-- A derivation that the parser finds for us: the grammar groups `AND` tighter than `OR`, whatever
the order of the clauses. -/
theorem derives_table_with_group :
    let kinds : List Kind :=
      [.keyword .table, .identifier "title", .keyword .sort, .identifier "title", .keyword .desc,
        .keyword .where, .identifier "type", .operator .eq, .string "log", .keyword .or, .lparen,
        .identifier "tags", .operator .ne, .identifier "old", .rparen, .keyword .and,
        .keyword .contains, .lparen, .identifier "title", .comma, .boolean true, .rparen,
        .keyword .limit, .number 3.0 true]
    let items := kinds.map fun k => Token.mk k 0
    (∀ t ∈ items, t.kind ≠ .eof) ∧ Derives (items.map Token.kind)
      { shape := .table
        fields := some ["title"]
        source := none
        condition := some (.logical .or (.compare "type" .eq (.string "log"))
          (.logical .and (.compare "tags" .ne (.string "old")) (.contains "title" (.boolean true))))
        order := some ⟨"title", .descending⟩
        limit := some 3 } := by
  intro kinds items
  have hitems : ∀ t ∈ items, t.kind ≠ .eof := by simp [items, kinds]
  obtain ⟨haccepts, _⟩ := @ofTokens_accepts_derivable items ⟨.eof, 0⟩ hitems rfl
  exact ⟨hitems, (haccepts _).mp rfl⟩

end Slipbox.Query
