import Mathlib.Order.Bounds.Basic
import Slipbox.Proofs.Query.FaultPosition
import Slipbox.Proofs.Query.Pieces
import Slipbox.Proofs.Text.Bytes

/-! The stretch of a text that a message quotes. A fault stands where a character starts or the text
ends, and so do both ends of the window around it: what is quoted is cut out of the text in whole
characters, and the window is the one of the radius but for the bytes of the characters at its
ends. -/

namespace Slipbox.Query

open Text (byteLength byteLength_toList)

namespace Snippet

variable {cs : List Char} {n : Nat}

/-- The offsets are those at which the bytes of the text may be parted. -/
theorem mem_boundaries_iff_isValid {text : String} :
    n ∈ boundaries text.toList ↔ (⟨n⟩ : String.Pos.Raw).IsValid text := by
  rw [mem_boundaries, String.Pos.Raw.isValid_iff_exists_append]
  constructor
  · rintro ⟨front, back, hparts, rfl⟩
    refine ⟨String.ofList front, String.ofList back, ?_, ?_⟩
    · rw [← String.ofList_append, hparts, String.ofList_toList]
    · rw [String.rawEndPos, ← byteLength_toList, String.toList_ofList]
  · rintro ⟨front, back, rfl, hsize⟩
    refine ⟨front.toList, back.toList, String.toList_append.symm, ?_⟩
    rw [byteLength_toList]
    exact congrArg String.Pos.Raw.byteIdx hsize.symm

theorem byteLength_mem_boundaries (cs : List Char) : byteLength cs ∈ boundaries cs :=
  mem_boundaries.mpr ⟨cs, [], List.append_nil cs, rfl⟩

theorem isBoundary_iff : isBoundary cs n = true ↔ n ∈ boundaries cs := by
  rw [isBoundary, List.contains_iff_mem]

/-- Every byte is one of a character. -/
theorem exists_char_at (h : n < byteLength cs) : ∃ front c back, front ++ c :: back = cs ∧
    byteLength front ≤ n ∧ n < byteLength front + c.utf8Size := by
  induction cs generalizing n with
  | nil => cases h
  | cons c cs ih =>
      by_cases hfirst : n < c.utf8Size
      · exact ⟨[], c, cs, rfl, Nat.zero_le n, by rwa [byteLength, Nat.zero_add]⟩
      · rw [byteLength] at h
        obtain ⟨front, d, back, rfl, hfront, hback⟩ := ih (n := n - c.utf8Size) (by omega)
        refine ⟨c :: front, d, back, rfl, ?_⟩
        rw [byteLength]
        omega

/-! Rounding. -/

theorem floor_isGreatest (cs : List Char) (n : Nat) :
    IsGreatest {b | b ∈ boundaries cs ∧ b ≤ n} (floor cs n) := by
  induction n with
  | zero =>
      exact ⟨⟨mem_boundaries.mpr ⟨[], cs, rfl, rfl⟩, le_rfl⟩, fun b hb => hb.2⟩
  | succ n ih =>
      rw [floor]
      split
      · next hhere => exact ⟨⟨isBoundary_iff.mp hhere, le_rfl⟩, fun b hb => hb.2⟩
      · next hhere =>
        rw [isBoundary_iff] at hhere
        refine ⟨⟨ih.1.1, Nat.le_succ_of_le ih.1.2⟩, fun b ⟨hb, hle⟩ => ih.2 ⟨hb, ?_⟩⟩
        have hne : b ≠ n + 1 := fun hsame => hhere (hsame ▸ hb)
        omega

theorem ceilWithin_isLeast {room : Nat} (h : n + room ∈ boundaries cs) :
    IsLeast {b | b ∈ boundaries cs ∧ n ≤ b} (ceilWithin cs room n) := by
  induction room generalizing n with
  | zero => exact ⟨⟨h, le_rfl⟩, fun b hb => hb.2⟩
  | succ room ih =>
      rw [ceilWithin]
      split
      · next hhere => exact ⟨⟨isBoundary_iff.mp hhere, le_rfl⟩, fun b hb => hb.2⟩
      · next hhere =>
        rw [isBoundary_iff] at hhere
        obtain ⟨⟨hmem, hle⟩, hleast⟩ := ih (n := n + 1) (by rwa [Nat.add_right_comm])
        refine ⟨⟨hmem, Nat.le_of_succ_le hle⟩, fun b ⟨hb, hle⟩ => hleast ⟨hb, ?_⟩⟩
        have hne : n ≠ b := fun hsame => hhere (hsame ▸ hb)
        omega

theorem ceil_isLeast (h : n ≤ byteLength cs) :
    IsLeast {b | b ∈ boundaries cs ∧ n ≤ b} (ceil cs n) := by
  refine ceilWithin_isLeast ?_
  rw [Nat.add_sub_cancel' h]
  exact byteLength_mem_boundaries cs

/-- A character has at most four bytes, and is not parted in front of its first one. -/
theorem exists_boundaries_near (h : n ≤ byteLength cs) :
    (∃ b ∈ boundaries cs, b ≤ n ∧ n ≤ b + 3) ∧ ∃ b ∈ boundaries cs, n ≤ b ∧ b ≤ n + 3 := by
  rcases Nat.eq_or_lt_of_le h with rfl | h
  · have hend := byteLength_mem_boundaries cs
    exact ⟨⟨_, hend, le_rfl, by omega⟩, _, hend, le_rfl, by omega⟩
  · obtain ⟨front, c, back, rfl, hfront, hback⟩ := exists_char_at h
    have hsize := c.utf8Size_le_four
    have hstart : byteLength front ∈ boundaries (front ++ c :: back) :=
      mem_boundaries.mpr ⟨front, c :: back, rfl, rfl⟩
    have hstop : byteLength front + c.utf8Size ∈ boundaries (front ++ c :: back) :=
      mem_boundaries.mpr ⟨front ++ [c], back, by simp, by simp [byteLength_append, byteLength]⟩
    refine ⟨⟨_, hstart, hfront, by omega⟩, ?_⟩
    -- Only a byte behind the first one of a character is rounded up to the end of the character.
    rcases Nat.eq_or_lt_of_le hfront with rfl | hinside
    · exact ⟨_, hstart, le_rfl, by omega⟩
    · exact ⟨_, hstop, hback.le, by omega⟩

/-! Windows. -/

/-- A window around a position. It begins and ends where the bytes of the text may be parted, and
reaches over `reach` bytes on both sides, as far as there are any. It reaches further only by the
rest of a character. -/
structure Frames (text : String) (reach position : Nat) (w : Window) : Prop where
  start_valid : (⟨w.start⟩ : String.Pos.Raw).IsValid text
  stop_valid : (⟨w.stop⟩ : String.Pos.Raw).IsValid text
  start_le : w.start ≤ position
  le_stop : position ≤ w.stop
  start_reaches : w.start ≤ position - reach
  start_near : position - reach ≤ w.start + 3
  stop_reaches : min (position + reach) text.utf8ByteSize ≤ w.stop
  stop_near : w.stop ≤ min (position + reach) text.utf8ByteSize + 3

theorem window_frames {text : String} {position : Nat} (h : position ≤ text.utf8ByteSize) :
    Frames text radius position (window text.toList position) := by
  have hsize := byteLength_toList text
  have hfront : min (position - radius) (byteLength text.toList) = position - radius := by omega
  have hback : min (position + radius) (byteLength text.toList) ≤ byteLength text.toList :=
    Nat.min_le_right _ _
  obtain ⟨⟨hstart, hstartLe⟩, hgreatest⟩ := floor_isGreatest text.toList (position - radius)
  obtain ⟨⟨hstop, hstopLe⟩, hleast⟩ := ceil_isLeast hback
  obtain ⟨⟨b, hb, hbLe, hbNear⟩, -⟩ := exists_boundaries_near (hfront ▸ Nat.min_le_right _ _)
  obtain ⟨-, d, hd, hdLe, hdNear⟩ := exists_boundaries_near hback
  have hstartNear := hgreatest ⟨hb, hbLe⟩
  have hstopNear := hleast ⟨hd, hdLe⟩
  rw [window, hfront]
  exact
    { start_valid := mem_boundaries_iff_isValid.mp hstart
      stop_valid := mem_boundaries_iff_isValid.mp hstop
      start_le := hstartLe.trans (Nat.sub_le _ _)
      le_stop := by dsimp only; omega
      start_reaches := hstartLe
      start_near := by dsimp only; omega
      stop_reaches := hsize ▸ hstopLe
      stop_near := by dsimp only; omega }

/-! Cutting. -/

/-- The characters of a text, each with the offset at which it starts. -/
def starts (n : Nat) (cs : List Char) : List (Nat × Char) :=
  (cs.scanl (fun n c => n + c.utf8Size) n).zip cs

theorem starts_cons (n : Nat) (c : Char) (cs : List Char) :
    starts n (c :: cs) = (n, c) :: starts (n + c.utf8Size) cs := by
  rw [starts, List.scanl_cons, List.zip_cons_cons]
  rfl

theorem starts_append (n : Nat) (cs ds : List Char) :
    starts n (cs ++ ds) = starts n cs ++ starts (n + byteLength cs) ds := by
  induction cs generalizing n with
  | nil => rfl
  | cons c cs ih =>
      rw [List.cons_append, starts_cons, starts_cons, ih, byteLength, Nat.add_assoc]
      rfl

theorem map_snd_starts (n : Nat) (cs : List Char) : (starts n cs).map (·.2) = cs := by
  induction cs generalizing n with
  | nil => rfl
  | cons c cs ih => rw [starts_cons, List.map_cons, ih]

theorem bounds_of_mem_starts {n : Nat} {cs : List Char} {p : Nat × Char} (h : p ∈ starts n cs) :
    n ≤ p.1 ∧ p.1 < n + byteLength cs := by
  induction cs generalizing n with
  | nil => cases h
  | cons c cs ih =>
      have hsize := c.utf8Size_pos
      rw [byteLength]
      rw [starts_cons, List.mem_cons] at h
      rcases h with rfl | h
      · dsimp only
        omega
      · have hlater := ih h
        omega

/-- A part of a text between the two ends of a window. -/
def IsSlice (text : List Char) (w : Window) (within : List Char) : Prop :=
  ∃ before after, before ++ within ++ after = text ∧ byteLength before = w.start ∧
    byteLength (before ++ within) = w.stop

theorem exists_slice {text : List Char} {w : Window} (hstart : w.start ∈ boundaries text)
    (hstop : w.stop ∈ boundaries text) (hle : w.start ≤ w.stop) :
    ∃ within, IsSlice text w within := by
  obtain ⟨before, rest, hbefore, hstart⟩ := mem_boundaries.mp hstart
  obtain ⟨front, after, hfront, hstop⟩ := mem_boundaries.mp hstop
  obtain ⟨within, rfl⟩ : before <+: front := by
    -- Both are beginnings of the text, and the shorter one is the one of fewer bytes.
    rcases List.prefix_or_prefix_of_prefix ⟨rest, hbefore⟩ ⟨after, hfront⟩ with h | ⟨more, rfl⟩
    · exact h
    · cases more with
      | nil => rw [List.append_nil]
      | cons c more =>
          have hsize := c.utf8Size_pos
          rw [byteLength_append, byteLength] at hstart
          omega
  exact ⟨within, before, after, hfront, hstart, hstop⟩

theorem IsSlice.cut_eq {text within : List Char} {w : Window} (h : IsSlice text w within) :
    cut text w = within := by
  obtain ⟨before, after, rfl, hstart, hstop⟩ := h
  have hcut : cut (before ++ within ++ after) w =
      ((starts 0 (before ++ within ++ after)).filter
        fun p => w.start ≤ p.1 ∧ p.1 < w.stop).map (·.2) := rfl
  rw [hcut, starts_append, starts_append, List.filter_append, List.filter_append]
  have houtside (n : Nat) (part : List Char) (h : n + byteLength part ≤ w.start ∨ w.stop ≤ n) :
      (starts n part).filter (fun p => w.start ≤ p.1 ∧ p.1 < w.stop) = [] := by
    refine List.filter_eq_nil_iff.mpr fun p hp => ?_
    have hbounds := bounds_of_mem_starts hp
    rw [decide_eq_true_iff]
    omega
  have hwithin : (starts (0 + byteLength before) within).filter
      (fun p => w.start ≤ p.1 ∧ p.1 < w.stop) = starts (0 + byteLength before) within := by
    refine List.filter_eq_self.mpr fun p hp => ?_
    have hbounds := bounds_of_mem_starts hp
    rw [byteLength_append] at hstop
    rw [decide_eq_true_iff]
    omega
  rw [houtside 0 before (by omega), hwithin, houtside _ after (by omega), List.nil_append,
    List.append_nil, map_snd_starts]

theorem at?_of_isSlice {text : String} {position : Nat} {within : List Char}
    (h : IsSlice text.toList (window text.toList position) within) :
    (at? text position = none ↔ Text.trim within = []) ∧
      ∀ s ∈ at? text position, s.toList = Text.trim within := by
  simp only [at?, h.cut_eq]
  cases htrim : Text.trim within with
  | nil => exact ⟨iff_of_true rfl rfl, fun s hs => nomatch hs⟩
  | cons c cs =>
      refine ⟨iff_of_false (by simp) (by simp), fun s hs => ?_⟩
      cases hs
      exact String.toList_ofList

end Snippet

/-! Reports. -/

theorem Error.withSource_position (e : Error) (source : String) :
    (e.withSource source).position = e.position := by
  unfold withSource
  split <;> rfl

theorem Error.withSource_snippet (f : Located) (source : String) :
    ((ofFault f).withSource source).snippet = Snippet.at? source f.position := by
  unfold withSource
  split
  · next h => exact h.symm
  · next h => exact h.symm

/-- The parser finds fault with one of the tokens. -/
theorem ofTokens_error_position {items : List Token} {marker : Token} {e : Located}
    (hitems : ∀ t ∈ items, t.kind ≠ .eof) (hmarker : marker.kind = .eof)
    (h : ofTokens (items ++ [marker]) = .error e) :
    ∃ t ∈ items ++ [marker], t.position = e.position := by
  rw [ofTokens, Stream.ofTokens_marked hitems hmarker, ok_bind] at h
  obtain ⟨ks, s', htakes, -, hstuck⟩ := Parse.query_locates items.length _ e (Nat.le_refl _) h
  obtain ⟨fault, hfault⟩ := hstuck items.length _ _ htakes rfl (Nat.le_refl _)
  cases h.symm.trans hfault
  obtain ⟨before, hbefore, hstop, rfl⟩ := htakes
  dsimp only at hbefore hstop
  rw [hbefore]
  cases hrest : s'.items with
  | nil => exact ⟨marker, by simp, by rw [hstop, Stream.peek, hrest]; rfl⟩
  | cons t rest => exact ⟨t, by simp, by rw [Stream.peek, hrest]; rfl⟩

theorem fault_mem_boundaries {text : String} {f : Located}
    (h : (tokenize text >>= ofTokens) = .error f) :
    f.position ∈ Snippet.boundaries text.toList := by
  cases htokens : tokenize text with
  | error f' =>
      rw [htokens] at h
      cases h
      exact (stops_of_tokensFrom htokens).boundary
  | ok tokens =>
      rw [htokens, ok_bind] at h
      obtain ⟨items, stop, rfl, hitems, -⟩ := (scanned_iff.mp htokens).kinds
      obtain ⟨t, ht, hposition⟩ := ofTokens_error_position hitems rfl h
      rw [← hposition]
      exact (partition_of_tokensFrom htokens).boundary t ht

theorem parse_eq_error {text : String} {e : Error} (h : parse text = .error e) :
    ∃ f, (tokenize text >>= ofTokens) = .error f ∧ e = (Error.ofFault f).withSource text := by
  unfold parse at h
  split at h
  · cases h
  · next f hf =>
    cases h
    exact ⟨f, hf, rfl⟩

/-- A fault stands in its text where the bytes may be parted. The message quotes what a window
around it holds, without the white space at the ends, unless nothing is left. -/
theorem parse_error_framed {text : String} {e : Error} (h : parse text = .error e) :
    (⟨e.position⟩ : String.Pos.Raw).IsValid text ∧ e.position ≤ text.utf8ByteSize ∧
      Snippet.Frames text 12 e.position (Snippet.window text.toList e.position) ∧
      ∃ within, Snippet.IsSlice text.toList (Snippet.window text.toList e.position) within ∧
        (e.snippet = none ↔ Text.trim within = []) ∧
        ∀ s ∈ e.snippet, s.toList = Text.trim within := by
  obtain ⟨f, hf, rfl⟩ := parse_eq_error h
  have hposition : ((Error.ofFault f).withSource text).position = f.position :=
    Error.withSource_position _ _
  rw [hposition, Error.withSource_snippet]
  have hvalid : (⟨f.position⟩ : String.Pos.Raw).IsValid text :=
    Snippet.mem_boundaries_iff_isValid.mp (fault_mem_boundaries hf)
  have hinside : f.position ≤ text.utf8ByteSize := hvalid.le_rawEndPos
  have hframes := Snippet.window_frames hinside
  obtain ⟨within, hwithin⟩ := Snippet.exists_slice
    (Snippet.mem_boundaries_iff_isValid.mpr hframes.start_valid)
    (Snippet.mem_boundaries_iff_isValid.mpr hframes.stop_valid)
    (hframes.start_le.trans hframes.le_stop)
  exact ⟨hvalid, hinside, hframes, within, hwithin, Snippet.at?_of_isSlice hwithin⟩

/-- The window is wider than the radius on both sides: it would part a letter there. -/
theorem parse_error_framed_accented :
    let text := "LIST  \"éééééééé\"~éééééééé"
    let e : Error := ⟨.lexical, "Unexpected character '~'", 24, some "éééééé\"~éééééé"⟩
    parse text = .error e ∧ Snippet.window text.toList e.position = ⟨11, 37⟩ ∧
      Snippet.Frames text 12 e.position ⟨11, 37⟩ := by
  intro text e
  have htokens : tokenize text = .error ⟨.unexpectedChar '~', 24⟩ := by cbv
  have hparse : parse text = .error e := by
    rw [parse, htokens]
    refine congrArg Except.error ?_
    decide +kernel
  have hwindow : Snippet.window text.toList e.position = ⟨11, 37⟩ := by decide +kernel
  obtain ⟨-, -, hframes, -⟩ := parse_error_framed hparse
  rw [hwindow] at hframes
  exact ⟨hparse, hwindow, hframes⟩

end Slipbox.Query
