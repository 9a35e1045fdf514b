import Slipbox.Proofs.Query.Parsing

/-! Readers that fail at the right token. A reader looks one token beyond those that it uses up, so
what it makes of a stream is settled by the tokens up to there. It fails at the first token that no
phrase has in its place: those before it can be completed to a phrase, and with this one the reader
fails whatever comes behind. Readers that run one after the other inherit this from their parts. -/

namespace Slipbox.Query

open Grammar

variable {α γ : Type}

/-- The tokens can be completed to a phrase. -/
def Viable (D : List Kind → α → Prop) (ks : List Kind) : Prop :=
  ∃ more a, Kind.eof ∉ more ∧ D (ks ++ more) a

/-- Streams of at most `n` tokens that begin like this, with such a token next, make the reader fail
at that token. -/
def Stuck (n : Nat) (read : Stream → Except Located γ) (ks : List Kind) (next : Kind) : Prop :=
  ∀ s s', s.Takes ks s' → s'.peek.kind = next → s.items.length ≤ n →
    ∃ fault, read s = .error ⟨fault, s'.peek.position⟩

/-- Readers, the `n`-th of which is meant for streams of at most `n` tokens, fail at some token of
the stream, in front of which stands what satisfies `P`. -/
def FailsAt (read : Nat → Stream → Except Located γ) (P : List Kind → Prop) (s : Stream) : Prop :=
  ∃ ks s', s.Takes ks s' ∧ P ks ∧ ∀ n, Stuck n (read n) ks s'.peek.kind

/-- Where the `n`-th reader fails, the tokens up to there are to blame. -/
def Locates (n : Nat) (read : Nat → Stream → Except Located γ) (P : List Kind → Prop) : Prop :=
  ∀ s e, s.items.length ≤ n → read n s = .error e → FailsAt read P s

/-- What a reader makes of the tokens that it uses up stands for them, and it makes the same of them
wherever a token of the same kind follows. -/
def Repeats (read : Nat → Stream → Except Located (Parsed α)) (D : List Kind → α → Prop) : Prop :=
  ∀ n s a s', s.items.length ≤ n → read n s = .ok (a, s') →
    ∃ ks, s.Takes ks s' ∧ D ks a ∧ ∀ m t t', t.Takes ks t' → t'.peek.kind = s'.peek.kind →
      t.items.length ≤ m → read m t = .ok (a, t')

theorem Viable.of_append {D : List Kind → α → Prop} {ks : List Kind} {a : α} (more : List Kind)
    (hmore : Kind.eof ∉ more) (h : D (ks ++ more) a) : Viable D ks :=
  ⟨more, a, hmore, h⟩

namespace Stream

theorem Takes.peek_kind {s s' t t' : Stream} {ks : List Kind} (hs : s.Takes ks s')
    (ht : t.Takes ks t') (hnext : t'.peek.kind = s'.peek.kind) : t.peek.kind = s.peek.kind := by
  cases ks with
  | nil => rwa [takes_nil.mp hs, takes_nil.mp ht]
  | cons k ks => rw [hs.uncons.1, ht.uncons.1]

theorem length_pos_of_peek {s : Stream} {k : Kind} (hpeek : s.peek.kind = k) (hk : k ≠ .eof) :
    s.items.length = s.advance.items.length + 1 := by
  have hlength := (takes_advance hpeek hk).length_le
  rwa [List.length_singleton, Nat.add_comm] at hlength

end Stream

section Readers

variable {read : Nat → Stream → Except Located γ} {P : List Kind → Prop} {s : Stream}

/-- The stream begins with a token at which the reader fails. -/
theorem FailsAt.here (hP : P [])
    (h : ∀ n t, t.peek.kind = s.peek.kind → t.items.length ≤ n →
      ∃ fault, read n t = .error ⟨fault, t.peek.position⟩) : FailsAt read P s := by
  refine ⟨[], s, Stream.takes_nil.mpr rfl, hP, fun n t t' htakes hnext hlength => ?_⟩
  rw [Stream.takes_nil] at htakes
  subst htakes
  exact h n t hnext hlength

/-- The reader goes on behind the first token. -/
theorem FailsAt.step {next : Nat → Stream → Except Located γ} {k : Kind} (hk : s.peek.kind = k)
    (hne : k ≠ .eof) (hread : ∀ n t, t.peek.kind = k → read (n + 1) t = next n t.advance)
    (h : FailsAt next (fun ks => P (k :: ks)) s.advance) : FailsAt read P s := by
  obtain ⟨ks, s', htakes, hP, hstuck⟩ := h
  refine ⟨k :: ks, s', htakes.cons hk hne, hP, fun n t t' htakes' hnext hlength => ?_⟩
  obtain ⟨hpeek, hrest⟩ := htakes'.uncons
  have hshorter := Stream.length_pos_of_peek hpeek hne
  obtain ⟨n, rfl⟩ : ∃ m, n = m + 1 := ⟨n - 1, by omega⟩
  rw [hread n t hpeek]
  exact hstuck n _ _ hrest hnext (by omega)

theorem FailsAt.bind {read : Nat → Stream → Except Located (Parsed α)}
    {next : Nat → Parsed α → Except Located γ} (h : FailsAt read P s) :
    FailsAt (fun n s => read n s >>= next n) P s := by
  obtain ⟨ks, s', htakes, hP, hstuck⟩ := h
  refine ⟨ks, s', htakes, hP, fun n t t' htakes' hnext hlength => ?_⟩
  obtain ⟨fault, hfault⟩ := hstuck n t t' htakes' hnext hlength
  exact ⟨fault, by simp only [hfault]; rfl⟩

/-- The reader goes on behind a phrase that it reads in front of every token such as the one that
follows here. -/
theorem FailsAt.behind {read : Nat → Stream → Except Located (Parsed α)}
    {next : Nat → Parsed α → Except Located γ} {ks : List Kind} {a : α} {s' : Stream}
    (htakes : s.Takes ks s')
    (hread : ∀ n t t', t.Takes ks t' → t'.peek.kind = s'.peek.kind → t.items.length ≤ n →
      read n t = .ok (a, t'))
    (h : FailsAt (fun n t => next n (a, t)) (fun ks' => P (ks ++ ks')) s') :
    FailsAt (fun n s => read n s >>= next n) P s := by
  obtain ⟨ks', s'', htakes', hP, hstuck⟩ := h
  refine ⟨ks ++ ks', s'', htakes.append htakes', hP, fun n t t'' ht hnext hlength => ?_⟩
  obtain ⟨t', hfirst, hrest⟩ := ht.split
  have hshorter := hfirst.length_le
  obtain ⟨fault, hfault⟩ := hstuck n t' t'' hrest hnext (by omega)
  refine ⟨fault, ?_⟩
  simp only [hread n t t' hfirst (htakes'.peek_kind hrest hnext) hlength, ok_bind]
  exact hfault

theorem FailsAt.mono {P' : List Kind → Prop} (h : FailsAt read P s) (hP : ∀ ks, P ks → P' ks) :
    FailsAt read P' s := by
  obtain ⟨ks, s', htakes, hks, hstuck⟩ := h
  exact ⟨ks, s', htakes, hP ks hks, hstuck⟩

/-- A reader that counts the tokens of its stream fails as those for longer streams do. -/
theorem FailsAt.own (h : FailsAt read P s) : FailsAt (fun _ t => read t.items.length t) P s := by
  obtain ⟨ks, s', htakes, hP, hstuck⟩ := h
  exact ⟨ks, s', htakes, hP, fun _ t t' ht hnext _ => hstuck _ t t' ht hnext (Nat.le_refl _)⟩

variable {n : Nat}

theorem Locates.of_ok (h : ∀ s, ∃ c, read n s = .ok c) : Locates n read P := by
  intro s e _ herror
  obtain ⟨c, hc⟩ := h s
  rw [hc] at herror
  cases herror

/-- One reader goes on behind another. -/
theorem Locates.bind {first : Nat → Stream → Except Located (Parsed α)}
    {next : Nat → Parsed α → Except Located γ} {D : List Kind → α → Prop}
    (hfirst : Locates n first P) (hrepeats : Repeats first D)
    (hnext : ∀ ks a, D ks a → Locates n (fun n t => next n (a, t)) fun ks' => P (ks ++ ks')) :
    Locates n (fun n s => first n s >>= next n) P := by
  intro s e hlength herror
  cases hread : first n s with
  | error e' => exact (hfirst s e' hlength hread).bind
  | ok read =>
      obtain ⟨a, s'⟩ := read
      obtain ⟨ks, htakes, hD, hagain⟩ := hrepeats n s a s' hlength hread
      have hshorter := htakes.length_le
      simp only [hread, ok_bind] at herror
      exact .behind htakes hagain (hnext ks a hD s' e (by omega) herror)

/-- A reader that goes on behind the first token fails where it goes on to. -/
theorem FailsAt.of_next {next : Nat → Stream → Except Located γ} {k : Kind} {e : Located}
    (hk : s.peek.kind = k) (hne : k ≠ .eof)
    (hread : ∀ n t, t.peek.kind = k → read (n + 1) t = next n t.advance)
    (hnext : ∀ m, n = m + 1 → Locates m next fun ks => P (k :: ks)) (hlength : s.items.length ≤ n)
    (herror : read n s = .error e) : FailsAt read P s := by
  have hused := Stream.length_pos_of_peek hk hne
  obtain ⟨n, rfl⟩ : ∃ m, n = m + 1 := ⟨n - 1, by omega⟩
  rw [hread n s hk] at herror
  exact .step hk hne hread (hnext n rfl s.advance e (by omega) herror)

theorem Locates.mono {P' : List Kind → Prop} (h : Locates n read P) (hP : ∀ ks, P ks → P' ks) :
    Locates n read P' :=
  fun s e hlength herror => (h s e hlength herror).mono hP

theorem Locates.own (h : ∀ n, Locates n read P) :
    Locates n (fun _ t => read t.items.length t) P :=
  fun s e _ herror => (h _ s e (Nat.le_refl _) herror).own

end Readers

section Maps

variable {β : Type} {read : Nat → Stream → Except Located (Parsed α)} {n : Nat}

theorem Locates.map {P : List Kind → Prop} (h : Locates n read P) (f : Parsed α → Parsed β) :
    Locates n (fun n s => (read n s).map f) P := by
  intro s e hlength herror
  cases hread : read n s with
  | error e' => exact (h s e' hlength hread).bind
  | ok a => simp [hread, Except.map] at herror

theorem Repeats.map {D : List Kind → α → Prop} {D' : List Kind → β → Prop} (h : Repeats read D)
    (f : α → β) (hD : ∀ ks a, D ks a → D' ks (f a)) :
    Repeats (fun n s => (read n s).map fun (a, s) => (f a, s)) D' := by
  intro n s b s' hlength hread
  obtain ⟨⟨a, s''⟩, hread, hb⟩ := map_eq_ok.mp hread
  cases hb
  obtain ⟨ks, htakes, hks, hagain⟩ := h n s a s' hlength hread
  exact ⟨ks, htakes, hD ks a hks, fun m t t' ht hnext hlength =>
    map_eq_ok.mpr ⟨_, hagain m t t' ht hnext hlength, rfl⟩⟩

theorem Repeats.own {D : List Kind → α → Prop} (h : Repeats read D) :
    Repeats (fun _ t => read t.items.length t) D := by
  intro n s a s' _ hread
  obtain ⟨ks, htakes, hks, hagain⟩ := h _ s a s' (Nat.le_refl _) hread
  exact ⟨ks, htakes, hks, fun m t t' ht hnext _ => hagain _ t t' ht hnext (Nat.le_refl _)⟩

end Maps

section SingleTokens

/-- The reader takes a token that has a meaning, and fails at any other. -/
structure OneToken (read : Stream → Except Located (Parsed α)) (Meaning : Kind → α → Prop) :
    Prop where
  ok : ∀ {s a s'}, read s = .ok (a, s') ↔ Meaning s.peek.kind a ∧ s.advance = s'
  error : ∀ {s e}, read s = .error e → e.position = s.peek.position
  eof : ∀ a, ¬ Meaning .eof a

variable {read : Stream → Except Located (Parsed α)} {Meaning : Kind → α → Prop}
  {P : List Kind → Prop} {n : Nat}

theorem OneToken.locates (h : OneToken read Meaning) (hP : P []) :
    Locates n (fun _ => read) P := by
  intro s e _ herror
  refine .here hP fun _ t hnext _ => ?_
  cases hread : read t with
  | error e => exact ⟨e.fault, by rw [← h.error hread]⟩
  | ok parsed =>
      have hmeaning := (h.ok.mp hread).1
      rw [hnext] at hmeaning
      cases (h.ok.mpr ⟨hmeaning, rfl⟩).symm.trans herror

theorem OneToken.repeats (h : OneToken read Meaning) :
    Repeats (fun _ => read) fun ks a => ∃ k, ks = [k] ∧ Meaning k a := by
  intro n s a s' _ hread
  obtain ⟨hmeaning, rfl⟩ := h.ok.mp hread
  have hne : s.peek.kind ≠ .eof := fun heof => h.eof a (heof ▸ hmeaning)
  refine ⟨_, Stream.takes_advance rfl hne, ⟨_, rfl, hmeaning⟩, fun m t t' ht _ _ => ?_⟩
  obtain ⟨hpeek, hrest⟩ := ht.uncons
  exact h.ok.mpr ⟨hpeek ▸ hmeaning, Stream.takes_nil.mp hrest⟩

/-- A reader that only passes over a token of one kind. -/
theorem Locates.symbol {pass : Stream → Except Located Stream} {k : Kind} {γ : Type}
    {next : Stream → Except Located γ}
    (hpass : ∀ {s s'}, pass s = .ok s' ↔ s.peek.kind = k ∧ s.advance = s') (hk : k ≠ .eof)
    (herror : ∀ {s e}, pass s = .error e → e.position = s.peek.position) (hP : P [])
    (hnext : Locates n (fun _ => next) fun ks => P (k :: ks)) :
    Locates n (fun _ s => pass s >>= next) P := by
  have hone : OneToken (fun s => (pass s).map fun s => ((), s)) fun k' _ => k' = k := by
    refine ⟨fun {s a s'} => ?_, fun {s e} h => ?_, fun _ => hk.symm⟩
    · rw [map_eq_ok]
      simp only [hpass, Prod.mk.injEq, true_and]
      exact ⟨fun ⟨_, h, hs⟩ => hs ▸ h, fun h => ⟨_, h, rfl⟩⟩
    · cases hread : pass s with
      | error e' =>
          rw [hread] at h
          cases h
          exact herror hread
      | ok s' =>
          rw [hread] at h
          cases h
  have heq : (fun (_ : Nat) s => pass s >>= next) =
      fun _ s => ((pass s).map fun s => ((), s)) >>= fun parsed => next parsed.2 := by
    funext _ s
    cases pass s <;> rfl
  rw [heq]
  refine .bind (hone.locates hP) hone.repeats ?_
  rintro _ _ ⟨_, rfl, rfl⟩
  exact hnext

end SingleTokens

end Slipbox.Query
