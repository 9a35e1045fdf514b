import Slipbox.Text.Case

/-! Lower case and ASCII letter case. Texts that differ in the case of ASCII letters only have the
same lower case: beside a sigma, too, such a letter counts the same in either case. -/

namespace Slipbox.Text

/-- The text in lower case as far as ASCII goes. -/
def asciiLower (s : String) : List Char :=
  s.toList.map Char.toLower

/-- What is the same for the twenty-six capitals and their small letters does not depend on ASCII
letter case. -/
theorem apply_toLower {α : Type} {f : Char → α}
    (h : ∀ n < 26, f (Char.ofNat (65 + n)).toLower = f (Char.ofNat (65 + n))) (c : Char) :
    f c.toLower = f c := by
  by_cases hupper : c.val ≥ 'A'.val ∧ c.val ≤ 'Z'.val
  · obtain ⟨hlow, hhigh⟩ := hupper
    rw [ge_iff_le, UInt32.le_iff_toNat_le] at hlow
    rw [UInt32.le_iff_toNat_le] at hhigh
    have hc : 65 + (c.toNat - 65) = c.toNat := Nat.add_sub_cancel' hlow
    rw [← Char.ofNat_toNat c, ← hc]
    exact h _ (Nat.lt_of_le_of_lt (Nat.sub_le_sub_right hhigh 65) (by decide))
  · have hkept : c.toLower = c := dif_neg hupper
    rw [hkept]

theorem isCased_toLower (c : Char) : isCased c.toLower = isCased c :=
  apply_toLower (by decide +kernel) c

theorem isIgnorable_toLower (c : Char) : isIgnorable c.toLower = isIgnorable c :=
  apply_toLower (by decide +kernel) c

theorem smallChar_toLower (c : Char) : smallChar c.toLower = smallChar c :=
  apply_toLower (by decide +kernel) c

theorem toLower_eq_sigma (c : Char) : c.toLower = 'Σ' ↔ c = 'Σ' := by
  let isSigma (c : Char) : Bool := c = 'Σ'
  have hsigma : isSigma c.toLower = isSigma c := apply_toLower (by decide +kernel) c
  simpa [isSigma] using hsigma

theorem touchesLetter_toLower (side : List Char) :
    touchesLetter (side.map Char.toLower) = touchesLetter side := by
  have hignored : (side.map Char.toLower).dropWhile isIgnorable =
      (side.dropWhile isIgnorable).map Char.toLower := by
    rw [List.dropWhile_map]
    congr 2
    funext c
    exact isIgnorable_toLower c
  rw [touchesLetter, touchesLetter, hignored]
  cases side.dropWhile isIgnorable with
  | nil => rfl
  | cons c cs => exact isCased_toLower c

theorem lowerAfter_toLower (before cs : List Char) :
    lowerAfter (before.map Char.toLower) (cs.map Char.toLower) = lowerAfter before cs := by
  induction cs generalizing before with
  | nil => rfl
  | cons c cs ih =>
      have hmore := ih (c :: before)
      rw [List.map_cons] at hmore
      rw [List.map_cons, lowerAfter, lowerAfter, hmore]
      simp only [toLower_eq_sigma, smallChar_toLower, touchesLetter_toLower]

/-- Texts that are equal up to ASCII letter case have one lower case. -/
theorem lowercase_eq_of_asciiLower {s t : String} (h : asciiLower s = asciiLower t) :
    lowercase s = lowercase t := by
  have hlower (u : String) : lower u.toList = lower (asciiLower u) :=
    (lowerAfter_toLower [] u.toList).symm
  rw [lowercase, lowercase, hlower, hlower, h]

end Slipbox.Text
