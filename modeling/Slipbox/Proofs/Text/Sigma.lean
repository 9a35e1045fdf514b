import Mathlib.Data.List.DropRight
import Mathlib.Data.List.TakeWhile
import Slipbox.Proofs.Text.Lowercase
import Slipbox.Text.Blank

/-! Lower case of a text and of its parts. All letters but the capital sigma become small by
themselves, so a part of a text has its own lower case within the text unless it ends in a sigma
whose word goes on behind it. A text whose lower case is plain ASCII is ASCII itself, but for the
Kelvin sign, whose small letter is the plain `k`. -/

namespace Slipbox.Text

/-- The small form of a letter between the text before it, which is given in reverse, and the text
behind it. -/
def smallAt (before : List Char) (c : Char) (behind : List Char) : List Char :=
  if c = 'Σ' then (if touchesLetter before && !touchesLetter behind then ['ς'] else ['σ'])
  else smallChar c

/-- The lower case of a part of a text between what stands before it, in reverse, and behind it. -/
def lowerBetween (before : List Char) : (part behind : List Char) → List Char
  | [], _ => []
  | c :: cs, behind => smallAt before c (cs ++ behind) ++ lowerBetween (c :: before) cs behind

theorem lowerAfter_cons (before : List Char) (c : Char) (cs : List Char) :
    lowerAfter before (c :: cs) = smallAt before c cs ++ lowerAfter (c :: before) cs := rfl

theorem touchesLetter_cons (c : Char) (cs : List Char) :
    touchesLetter (c :: cs) = if isIgnorable c then touchesLetter cs else isCased c := by
  unfold touchesLetter
  rw [List.dropWhile_cons]
  by_cases hc : isIgnorable c = true
  · rw [if_pos hc, if_pos hc]
  · rw [if_neg hc, if_neg hc]

/-- The near side of a text decides, unless all of it is to be ignored. -/
theorem touchesLetter_append (near far : List Char) :
    touchesLetter (near ++ far) =
      if near.all isIgnorable then touchesLetter far else touchesLetter near := by
  induction near with
  | nil => simp
  | cons c near ih =>
      rw [List.cons_append, touchesLetter_cons, touchesLetter_cons, ih]
      cases hc : isIgnorable c
      · simp only [List.all_cons, hc, Bool.false_and, Bool.false_eq_true, if_false]
      · simp only [List.all_cons, hc, Bool.true_and, if_true]

theorem touchesLetter_append_congr (near : List Char) {far far' : List Char}
    (h : touchesLetter far = touchesLetter far') :
    touchesLetter (near ++ far) = touchesLetter (near ++ far') := by
  rw [touchesLetter_append, touchesLetter_append, h]

theorem touchesLetter_ignorable {cs : List Char} (h : ∀ c ∈ cs, isIgnorable c = true) :
    touchesLetter cs = false := by
  have happend := touchesLetter_append cs []
  rwa [List.append_nil, if_pos (List.all_eq_true.mpr h)] at happend

section Parts

variable {before behind part : List Char}

theorem smallAt_congr {before' behind' : List Char} (c : Char)
    (hbefore : touchesLetter before = touchesLetter before')
    (hbehind : touchesLetter behind = touchesLetter behind') :
    smallAt before c behind = smallAt before' c behind' := by
  rw [smallAt, smallAt, hbefore, hbehind]

theorem lowerBetween_congr {before' behind' : List Char}
    (hbefore : touchesLetter before = touchesLetter before')
    (hbehind : touchesLetter behind = touchesLetter behind') :
    lowerBetween before part behind = lowerBetween before' part behind' := by
  induction part generalizing before before' with
  | nil => rfl
  | cons c cs ih =>
      rw [lowerBetween, lowerBetween,
        smallAt_congr c hbefore (touchesLetter_append_congr cs hbehind)]
      congr 1
      apply ih
      rw [touchesLetter_cons, touchesLetter_cons, hbefore]

theorem lowerAfter_append (before part behind : List Char) :
    lowerAfter before (part ++ behind) =
      lowerBetween before part behind ++ lowerAfter (part.reverse ++ before) behind := by
  induction part generalizing before with
  | nil => rfl
  | cons c cs ih =>
      rw [List.cons_append, lowerAfter_cons, ih, lowerBetween, List.append_assoc,
        List.reverse_cons, List.append_assoc, List.singleton_append]

theorem lowerBetween_nil (before part : List Char) :
    lowerBetween before part [] = lowerAfter before part := by
  have happend := lowerAfter_append before part []
  rw [List.append_nil] at happend
  rw [happend]
  exact (List.append_nil _).symm

theorem lowerBetween_append (before part part' behind : List Char) :
    lowerBetween before (part ++ part') behind =
      lowerBetween before part (part' ++ behind) ++
        lowerBetween (part.reverse ++ before) part' behind := by
  induction part generalizing before with
  | nil => rfl
  | cons c cs ih =>
      rw [List.cons_append, lowerBetween, ih, lowerBetween, List.append_assoc,
        List.append_assoc, List.reverse_cons, List.append_assoc, List.singleton_append]

theorem lowerAfter_congr {before' : List Char} (h : touchesLetter before = touchesLetter before')
    (cs : List Char) : lowerAfter before cs = lowerAfter before' cs := by
  rw [← lowerBetween_nil, ← lowerBetween_nil]
  exact lowerBetween_congr h rfl

end Parts

/-- A slash parts a text into two that have nothing to do with each other. -/
theorem lower_slash (front back : List Char) :
    lower (front ++ '/' :: back) = lower front ++ '/' :: lower back := by
  have hquiet (cs : List Char) : touchesLetter ('/' :: cs) = touchesLetter [] := by
    have hslash : isIgnorable '/' = false ∧ isCased '/' = false := by decide +kernel
    rw [touchesLetter_cons, hslash.1, hslash.2]
    rfl
  have hfront : lowerBetween [] front ('/' :: back) = lower front := by
    rw [lower, ← lowerBetween_nil]
    exact lowerBetween_congr rfl (hquiet back)
  rw [lower, lowerAfter_append, hfront, lowerAfter_cons, lowerAfter_congr (hquiet _) back]
  rfl

/-- The last letter of the text is a capital sigma, and with it a word ends. -/
def EndsInSigma (text : List Char) : Prop :=
  ∃ word rest, text = word ++ 'Σ' :: rest ∧ touchesLetter word.reverse = true ∧
    ∀ c ∈ rest, isIgnorable c = true

/-- What stands behind a text makes no difference to it, unless it ends in a sigma. -/
theorem lowerBetween_eq_lower {text : List Char} (h : ¬ EndsInSigma text) (behind : List Char) :
    lowerBetween [] text behind = lower text := by
  have hparts : ∀ before part, text = before.reverse ++ part →
      lowerBetween before part behind = lowerAfter before part := by
    intro before part
    induction part generalizing before with
    | nil => exact fun _ => rfl
    | cons c cs ih =>
        intro htext
        have hfirst : smallAt before c (cs ++ behind) = smallAt before c cs := by
          by_cases hc : c = 'Σ'
          · subst hc
            by_cases hbefore : touchesLetter before = true
            · have hcs : ¬ ∀ c ∈ cs, isIgnorable c = true := fun hcs =>
                h ⟨before.reverse, cs, htext, by rwa [List.reverse_reverse], hcs⟩
              rw [smallAt, smallAt, touchesLetter_append, if_neg (List.all_eq_true.not.mpr hcs)]
            · simp only [smallAt, hbefore, Bool.false_and]
          · rw [smallAt, smallAt, if_neg hc, if_neg hc]
        rw [lowerBetween, lowerAfter_cons, hfirst, ih (c :: before) (by simp [htext])]
  exact hparts [] text rfl

/-- No blank lies in this range of code points beyond ASCII, and all of them are characters. -/
def IsPlainRange (first last : Nat) : Prop :=
  0xa0 < first ∧ (last < 0x1680 ∨ 0x1680 < first ∧ last < 0x2000 ∨ 0x205f < first ∧ last < 0x3000 ∨
    0x3000 < first ∧ last < 0xd800 ∨ 0xdfff < first ∧ last < 0x110000)

instance (first last : Nat) : Decidable (IsPlainRange first last) :=
  inferInstanceAs (Decidable (_ ∧ _))

/-- The Kelvin sign apart, capitals beyond ASCII have small letters beyond ASCII. -/
theorem capitalRuns_plain : ∀ run ∈ capitalRuns, IsPlainRange run.first run.last ∧
    (IsPlainRange run.smallOfFirst (run.smallOfFirst + (run.last - run.first)) ∨
      run.first = 0x212a ∧ run.last = 0x212a) := by
  decide +kernel

theorem isBlank_of_isPlainRange {first last n : Nat} (h : IsPlainRange first last)
    (hfirst : first ≤ n) (hlast : n ≤ last) :
    (Char.ofNat n).toNat = n ∧ isBlank (Char.ofNat n) = false := by
  have hvalid : n.isValidChar := by
    unfold IsPlainRange at h
    unfold Nat.isValidChar
    omega
  have hn : (Char.ofNat n).toNat = n := by
    rw [Char.ofNat, dif_pos hvalid]
    rfl
  refine ⟨hn, ?_⟩
  unfold isBlank
  rw [hn]
  unfold IsPlainRange at h
  simp only [Bool.or_eq_false_iff, Bool.and_eq_false_iff, decide_eq_false_iff_not,
    beq_eq_false_iff_ne]
  omega

/-- The small form of a character beyond ASCII. -/
theorem smallChar_beyond {c : Char} (h : 0x80 ≤ c.toNat) :
    c = 'İ' ∨ c = '\u212A' ∨
      ∃ x, smallChar c = [x] ∧ 0x80 ≤ x.toNat ∧ isBlank x = isBlank c := by
  by_cases hdotted : c = 'İ'
  · exact .inl hdotted
  by_cases hkelvin : c = '\u212A'
  · exact .inr (.inl hkelvin)
  refine .inr (.inr ?_)
  rw [smallChar, if_neg (Nat.not_lt.mpr h), if_neg hdotted]
  cases hsmall : capitalRuns.findSome? fun run => run.small? c.toNat with
  | none => exact ⟨c, rfl, h, rfl⟩
  | some n =>
      obtain ⟨run, hrun, hn⟩ := List.exists_of_findSome?_eq_some hsmall
      obtain ⟨⟨hfirst, hlast, _⟩, rfl⟩ : (run.first ≤ c.toNat ∧ c.toNat ≤ run.last ∧ _) ∧
          run.smallOfFirst + (c.toNat - run.first) = n := by
        simpa [CapitalRun.small?] using hn
      obtain ⟨hcapital, hplain | ⟨hstart, hend⟩⟩ := capitalRuns_plain run hrun
      · have hc := isBlank_of_isPlainRange hcapital hfirst hlast
        have hx := isBlank_of_isPlainRange (n := run.smallOfFirst + (c.toNat - run.first)) hplain
          (by omega) (by omega)
        rw [Char.ofNat_toNat] at hc
        refine ⟨_, rfl, ?_, hx.2.trans hc.2.symm⟩
        have hbound := hplain.1
        omega
      · refine absurd ?_ hkelvin
        have hc : c.toNat = 0x212a := Nat.le_antisymm (hend ▸ hlast) (hstart ▸ hfirst)
        rw [← Char.ofNat_toNat c, hc]

theorem smallAt_sigma (before behind : List Char) : smallAt before 'Σ' behind =
    if touchesLetter before && !touchesLetter behind then ['ς'] else ['σ'] :=
  if_pos rfl

section Letters

variable (before behind : List Char) (c : Char)

theorem smallAt_shape :
    (∃ x, smallAt before c behind = [x]) ∨ smallAt before c behind = ['i', '\u0307'] := by
  unfold smallAt
  split
  · split
    · exact .inl ⟨'ς', rfl⟩
    · exact .inl ⟨'σ', rfl⟩
  · rcases Nat.lt_or_ge c.toNat 0x80 with hc | hc
    · exact .inl ⟨c.toLower, if_pos hc⟩
    · rcases smallChar_beyond hc with rfl | rfl | ⟨x, hx, _⟩
      · exact .inr (by decide +kernel)
      · exact .inl ⟨'k', by decide +kernel⟩
      · exact .inl ⟨x, hx⟩

theorem smallAt_ne_nil : smallAt before c behind ≠ [] := by
  rcases smallAt_shape before behind c with ⟨x, hx⟩ | hx <;> rw [hx] <;> exact List.cons_ne_nil _ _

/-- A character of the small form of a letter. -/
theorem of_mem_smallAt {before behind : List Char} {c x : Char} (hx : x ∈ smallAt before c behind) :
    x = c.toLower ∨ 0x80 ≤ c.toNat ∧ (0x80 ≤ x.toNat ∨ x = 'i' ∨ x = 'k') ∧
      isBlank x = isBlank c := by
  unfold smallAt at hx
  split at hx
  · next hc =>
    have hx' : x = 'ς' ∨ x = 'σ' := by
      split at hx
      · exact .inl (List.mem_singleton.mp hx)
      · exact .inr (List.mem_singleton.mp hx)
    subst hc
    rcases hx' with rfl | rfl <;> exact .inr (by decide +kernel)
  · rcases Nat.lt_or_ge c.toNat 0x80 with hc | hc
    · rw [smallChar, if_pos hc, List.mem_singleton] at hx
      exact .inl hx
    · refine .inr ⟨hc, ?_⟩
      rcases smallChar_beyond hc with rfl | rfl | ⟨y, hy, hbound, hblank⟩
      · have hforms : smallChar 'İ' = ['i', '\u0307'] := by decide +kernel
        rw [hforms, List.mem_cons, List.mem_singleton] at hx
        rcases hx with rfl | rfl <;> decide +kernel
      · have hforms : smallChar '\u212A' = ['k'] := by decide +kernel
        rw [hforms, List.mem_singleton] at hx
        subst hx
        decide +kernel
      · rw [hy, List.mem_singleton] at hx
        subst hx
        exact ⟨.inl hbound, hblank⟩

/-- A letter and its small form are both blank or both not. -/
theorem isBlank_of_mem_smallAt {before behind : List Char} {c x : Char}
    (hx : x ∈ smallAt before c behind) : isBlank x = isBlank c := by
  rcases of_mem_smallAt hx with rfl | ⟨_, _, hblank⟩
  · exact apply_toLower (by decide +kernel) c
  · exact hblank

theorem slash_mem_smallAt : '/' ∈ smallAt before c behind ↔ c = '/' := by
  constructor
  · intro hx
    rcases of_mem_smallAt hx with hlower | ⟨_, hbeyond, _⟩
    · let isSlash (c : Char) : Bool := c == '/'
      have hsame : isSlash c.toLower = isSlash c := apply_toLower (by decide +kernel) c
      rw [← hlower] at hsame
      exact eq_of_beq hsame.symm
    · exact absurd hbeyond (by decide)
  · rintro rfl
    have hsmall : smallAt before '/' behind = ['/'] := rfl
    rw [hsmall]
    exact List.mem_singleton_self '/'

end Letters

theorem lowerBetween_of_no_sigma {before part behind : List Char} (h : 'Σ' ∉ part) :
    lowerBetween before part behind = part.flatMap smallChar := by
  induction part generalizing before with
  | nil => rfl
  | cons c cs ih =>
      rw [List.mem_cons, not_or] at h
      rw [lowerBetween, smallAt, if_neg (Ne.symm h.1), ih h.2, List.flatMap_cons]

theorem lowerAfter_of_no_sigma {text : List Char} (h : 'Σ' ∉ text) (before : List Char) :
    lowerAfter before text = text.flatMap smallChar := by
  rw [← lowerBetween_nil, lowerBetween_of_no_sigma h]

/-- Every letter of a text leaves its small form in the lower case. -/
theorem exists_smallAt_subset (before : List Char) {text : List Char} {c : Char} (hc : c ∈ text) :
    ∃ before' behind', smallAt before' c behind' ⊆ lowerAfter before text := by
  obtain ⟨front, back, rfl⟩ := List.append_of_mem hc
  refine ⟨front.reverse ++ before, back, ?_⟩
  rw [lowerAfter_append, lowerAfter_cons]
  exact fun x hx => List.mem_append_right _ (List.mem_append_left _ hx)

/-- Every letter of the lower case comes from a letter of the text. -/
theorem exists_mem_smallAt {before text : List Char} {x : Char} (hx : x ∈ lowerAfter before text) :
    ∃ c ∈ text, ∃ before' behind', x ∈ smallAt before' c behind' := by
  induction text generalizing before with
  | nil => cases hx
  | cons c cs ih =>
      rw [lowerAfter_cons, List.mem_append] at hx
      rcases hx with hx | hx
      · exact ⟨c, List.mem_cons_self, before, cs, hx⟩
      · obtain ⟨c', hc', hmem⟩ := ih hx
        exact ⟨c', List.mem_cons_of_mem c hc', hmem⟩

theorem toLower_beyond {c : Char} (h : 0x80 ≤ c.toNat) : c.toLower = c := by
  refine dif_neg fun hupper => ?_
  have hlast : c.toNat ≤ 90 := UInt32.le_iff_toNat_le.mp hupper.2
  omega

/-- In ASCII the lower case is small. -/
theorem toLower_of_mem_lowerAfter {before text : List Char} {x : Char}
    (hx : x ∈ lowerAfter before text) : x.toLower = x := by
  obtain ⟨c, _, before', behind', hx⟩ := exists_mem_smallAt hx
  rcases of_mem_smallAt hx with rfl | ⟨_, hbound | rfl | rfl, _⟩
  · exact apply_toLower (by decide +kernel) c
  · exact toLower_beyond hbound
  · rfl
  · rfl

theorem slash_mem_lower {text : List Char} : '/' ∈ lower text ↔ '/' ∈ text := by
  constructor
  · intro h
    obtain ⟨c, hc, before, behind, hx⟩ := exists_mem_smallAt h
    rwa [(slash_mem_smallAt before behind c).mp hx] at hc
  · intro h
    obtain ⟨before, behind, hsubset⟩ := exists_smallAt_subset [] h
    exact hsubset ((slash_mem_smallAt before behind '/').mpr rfl)

theorem slash_of_head?_lower {text : List Char} (h : (lower text).head? = some '/') :
    text.head? = some '/' := by
  cases text with
  | nil => cases h
  | cons c cs =>
      rw [lower, lowerAfter_cons, List.head?_append_of_ne_nil _ (smallAt_ne_nil _ _ _)] at h
      rw [List.head?_cons, (slash_mem_smallAt _ _ _).mp (List.mem_of_mem_head? h)]

/-- A text that ends in a sigma has another lower case when its last word goes on behind it. -/
theorem EndsInSigma.lower_ne {text behind : List Char} (h : EndsInSigma text)
    (hbehind : touchesLetter behind = true) :
    ∃ front back, lowerBetween [] text behind = front ++ 'σ' :: back ∧
      lower text = front ++ 'ς' :: back ∧ '/' ∉ back := by
  obtain ⟨word, rest, rfl, hword, hrest⟩ := h
  have hsigma : isIgnorable 'Σ' = false := by decide +kernel
  have hslash : isIgnorable '/' = false := by decide +kernel
  have hno : 'Σ' ∉ rest := fun hmem => Bool.false_ne_true (hsigma.symm.trans (hrest _ hmem))
  have hnoslash : '/' ∉ rest.flatMap smallChar := by
    rw [← lowerAfter_of_no_sigma hno [], ← lower, slash_mem_lower]
    exact fun hmem => Bool.false_ne_true (hslash.symm.trans (hrest _ hmem))
  have hparts (next : List Char) : lowerBetween [] (word ++ 'Σ' :: rest) next =
      lowerBetween [] word ('Σ' :: rest) ++
        (smallAt word.reverse 'Σ' (rest ++ next) ++ rest.flatMap smallChar) := by
    rw [lowerBetween_append, lowerBetween, lowerBetween_of_no_sigma hno, List.append_nil]
    refine congrArg (· ++ _) (lowerBetween_congr rfl ?_)
    rw [List.cons_append, touchesLetter_cons, touchesLetter_cons, hsigma,
      if_neg Bool.false_ne_true, if_neg Bool.false_ne_true]
  refine ⟨lowerBetween [] word ('Σ' :: rest), rest.flatMap smallChar, ?_, ?_, hnoslash⟩
  · rw [hparts, smallAt_sigma, touchesLetter_append, if_pos (List.all_eq_true.mpr hrest), hbehind,
      Bool.not_true, Bool.and_false, if_neg Bool.false_ne_true, List.singleton_append]
  · rw [lower, ← lowerBetween_nil, hparts, smallAt_sigma, List.append_nil,
      touchesLetter_ignorable hrest, hword, Bool.not_false, Bool.and_true, if_pos rfl,
      List.singleton_append]

/-- The end of the lower case is the lower case of an end of the text. Only the dot that a capital
dotted `I` leaves behind can stand at the beginning of an end that is not. -/
theorem exists_of_suffix_lowerAfter {before text tail : List Char}
    (hdot : tail.head? ≠ some '\u0307') (h : tail <:+ lowerAfter before text) :
    ∃ front back, text = front ++ back ∧ lowerAfter (front.reverse ++ before) back = tail := by
  induction text generalizing before with
  | nil => exact ⟨[], [], rfl, (List.suffix_nil.mp h).symm⟩
  | cons c cs ih =>
      have hmore (h : tail <:+ lowerAfter (c :: before) cs) : ∃ front back,
          c :: cs = front ++ back ∧ lowerAfter (front.reverse ++ before) back = tail := by
        obtain ⟨front, back, rfl, htail⟩ := ih h
        refine ⟨c :: front, back, rfl, ?_⟩
        rwa [List.reverse_cons, List.append_assoc, List.singleton_append]
      have hcons := lowerAfter_cons before c cs
      rcases smallAt_shape before cs c with ⟨x, hx⟩ | hx
      · rw [hcons, hx, List.singleton_append, List.suffix_cons_iff] at h
        rcases h with h | h
        · exact ⟨[], c :: cs, rfl, (hcons.trans (congrArg (· ++ _) hx)).trans h.symm⟩
        · exact hmore h
      · rw [hcons, hx, List.cons_append, List.singleton_append, List.suffix_cons_iff,
          List.suffix_cons_iff] at h
        rcases h with h | h | h
        · exact ⟨[], c :: cs, rfl, (hcons.trans (congrArg (· ++ _) hx)).trans h.symm⟩
        · rw [h] at hdot
          exact absurd rfl hdot
        · exact hmore h

/-- A text whose lower case is ASCII has no letters beyond ASCII but Kelvin signs. -/
theorem ascii_of_lowerAfter {before text : List Char}
    (h : ∀ x ∈ lowerAfter before text, x.toNat < 0x80) :
    ∀ c ∈ text, c.toNat < 0x80 ∨ c = '\u212A' := by
  intro c hc
  obtain ⟨before', behind', hsubset⟩ := exists_smallAt_subset before hc
  have hsmall : ∀ x ∈ smallAt before' c behind', x.toNat < 0x80 := fun x hx => h x (hsubset hx)
  by_contra hne
  rw [not_or, Nat.not_lt] at hne
  by_cases hsigma : c = 'Σ'
  · subst hsigma
    rw [smallAt_sigma] at hsmall
    split at hsmall <;> exact absurd (hsmall _ (List.mem_singleton_self _)) (by decide)
  · rw [smallAt, if_neg hsigma] at hsmall
    rcases smallChar_beyond hne.1 with rfl | rfl | ⟨x, hx, hbound, _⟩
    · exact absurd (hsmall '\u0307' (by decide +kernel)) (by decide)
    · exact hne.2 rfl
    · rw [hx] at hsmall
      exact absurd (hsmall x (List.mem_singleton_self x)) (Nat.not_lt.mpr hbound)

theorem no_sigma_of_ascii {before text : List Char}
    (h : ∀ x ∈ lowerAfter before text, x.toNat < 0x80) : 'Σ' ∉ text := by
  intro hmem
  have hsigma := ascii_of_lowerAfter h 'Σ' hmem
  revert hsigma
  decide

/-- An ASCII text is small when each of its letters is. -/
theorem lower_of_ascii {text : List Char} (h : ∀ c ∈ text, c.toNat < 0x80) :
    lower text = text.map Char.toLower := by
  have hno : 'Σ' ∉ text := fun hmem => absurd (h 'Σ' hmem) (by decide)
  rw [lower, lowerAfter_of_no_sigma hno, List.map_eq_flatMap]
  exact List.flatMap_congr fun c hc => if_pos (h c hc)

theorem trimStart_eq_self {text : List Char} :
    trimStart text = text ↔ ∀ c ∈ text.head?, isBlank c = false := by
  rw [trimStart, List.dropWhile_eq_self_iff]
  cases text <;> simp

/-- Nothing is trimmed from a text that neither begins nor ends with a blank. -/
theorem trim_eq_self {text : List Char} : trim text = text ↔
    (∀ c ∈ text.head?, isBlank c = false) ∧ ∀ c ∈ text.getLast?, isBlank c = false := by
  have hend (cs : List Char) : trimEnd cs = cs ↔ ∀ c ∈ cs.getLast?, isBlank c = false := by
    rw [show trimEnd cs = cs.rdropWhile isBlank from rfl, List.rdropWhile_eq_self_iff]
    rcases List.eq_nil_or_concat cs with rfl | ⟨front, c, rfl⟩ <;> simp
  rw [← trimStart_eq_self, ← hend]
  constructor
  · intro h
    have hsuffix : trimStart text <:+ text := List.dropWhile_suffix isBlank
    have hprefix : trim text <+: trimStart text := List.rdropWhile_prefix isBlank _
    rw [h] at hprefix
    have hkept : trimStart text = text :=
      hsuffix.eq_of_length (Nat.le_antisymm hsuffix.length_le hprefix.length_le)
    exact ⟨hkept, (congrArg trimEnd hkept).symm.trans h⟩
  · rintro ⟨hkept, hkept'⟩
    rw [trim, hkept, hkept']

/-- Lower case leaves no letter out. -/
theorem lower_eq_nil {cs : List Char} : lower cs = [] ↔ cs = [] := by
  constructor
  · intro h
    cases cs with
    | nil => rfl
    | cons c cs =>
        rw [lower, lowerAfter_cons, List.append_eq_nil_iff] at h
        exact absurd h.1 (smallAt_ne_nil _ _ _)
  · rintro rfl
    rfl

/-- A text begins with a blank just when its lower case does. -/
theorem isBlank_head?_lower {text : List Char} :
    (∀ x ∈ (lower text).head?, isBlank x = false) ↔ ∀ c ∈ text.head?, isBlank c = false := by
  cases text with
  | nil => rfl
  | cons c cs =>
      obtain ⟨x, xs, hx⟩ := List.exists_cons_of_ne_nil (smallAt_ne_nil [] cs c)
      have hsame : isBlank x = isBlank c :=
        isBlank_of_mem_smallAt (hx ▸ List.mem_cons_self)
      rw [lower, lowerAfter_cons, hx]
      simp [hsame]

/-- The outer letters of a text are blank just when those of its lower case are. -/
theorem trim_lower {text : List Char} : trim (lower text) = lower text ↔ trim text = text := by
  have hlast : (∀ x ∈ (lower text).getLast?, isBlank x = false) ↔
      ∀ c ∈ text.getLast?, isBlank c = false := by
    rcases List.eq_nil_or_concat text with rfl | ⟨front, c, rfl⟩
    · rfl
    · have hne := smallAt_ne_nil front.reverse [] c
      have hsame : isBlank ((smallAt front.reverse c []).getLast hne) = isBlank c :=
        isBlank_of_mem_smallAt (List.getLast_mem hne)
      have hsplit : lower (front.concat c) =
          lowerBetween [] front [c] ++ smallAt front.reverse c [] := by
        rw [lower, List.concat_eq_append, lowerAfter_append, lowerAfter_cons, List.append_nil,
          lowerAfter, List.append_nil]
      rw [hsplit, List.getLast?_append_of_ne_nil _ hne, List.getLast?_eq_some_getLast hne,
        List.concat_eq_append, List.getLast?_concat]
      simp [hsame]
  rw [trim_eq_self, trim_eq_self, isBlank_head?_lower, hlast]

end Slipbox.Text
