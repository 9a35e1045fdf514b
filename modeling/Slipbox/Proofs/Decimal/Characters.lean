import Slipbox.Proofs.Decimal.Plain

/-! The characters that numbers are written with: digits, the sign, the point and the exponent
mark. -/

namespace Slipbox.Decimal

/-- A character that numbers are written with. -/
def IsNumeric (c : Char) : Prop :=
  c.isDigit = true ∨ c = '-' ∨ c = '.' ∨ c = 'e'

theorem isNumeric_toString (n : Int) : ∀ c ∈ (toString n).toList, IsNumeric c := by
  have hnat (m : Nat) : ∀ c ∈ m.repr.toList, IsNumeric c := by
    intro c hc
    rw [Nat.toList_repr] at hc
    exact .inl (isDigit_of_mem_digitChars hc)
  cases n with
  | ofNat m => exact hnat m
  | negSucc m =>
      have htext : (toString (Int.negSucc m)).toList = '-' :: (m + 1).repr.toList :=
        String.toList_append
      rw [htext, List.forall_mem_cons]
      exact ⟨.inr (.inl rfl), hnat (m + 1)⟩

theorem isNumeric_digitChars (n : Nat) : ∀ c ∈ digitChars n, IsNumeric c :=
  fun _ hc => .inl (isDigit_of_mem_digitChars hc)

theorem isNumeric_zeros (n : Nat) : ∀ c ∈ zeros n, IsNumeric c :=
  fun _ hc => .inl (isDigit_of_mem_zeros hc)

theorem Scaled.isNumeric_plainChars (s : Scaled) : ∀ c ∈ s.plainChars, IsNumeric c := by
  have hdigits := isNumeric_digitChars s.digits
  have hpoint : IsNumeric '.' := .inr (.inr (.inl rfl))
  have hzero : IsNumeric '0' := .inl rfl
  unfold plainChars
  dsimp only
  split
  · split
    · exact List.forall_mem_singleton.mpr hzero
    · exact List.forall_mem_append.mpr ⟨hdigits, isNumeric_zeros _⟩
  · split
    · refine List.forall_mem_append.mpr ⟨fun c hc => hdigits c (List.mem_of_mem_take hc), ?_⟩
      exact List.forall_mem_cons.mpr ⟨hpoint, fun c hc => hdigits c (List.mem_of_mem_drop hc)⟩
    · simp only [List.forall_mem_append, List.forall_mem_cons]
      exact ⟨⟨hzero, hpoint, isNumeric_zeros _⟩, hdigits⟩

theorem Scaled.isNumeric_jsonChars (s : Scaled) : ∀ c ∈ s.jsonChars, IsNumeric c := by
  have hdigits := isNumeric_digitChars s.digits
  have hmark (e : Int) : ∀ c ∈ 'e' :: (toString e).toList, IsNumeric c :=
    List.forall_mem_cons.mpr ⟨.inr (.inr (.inr rfl)), isNumeric_toString e⟩
  have hpoint : IsNumeric '.' := .inr (.inr (.inl rfl))
  have hzero : IsNumeric '0' := .inl rfl
  unfold jsonChars
  dsimp only
  split
  · intro c hc
    fin_cases hc <;> assumption
  · split
    · simp only [List.forall_mem_append, List.forall_mem_cons]
      exact ⟨⟨hdigits, isNumeric_zeros _⟩, hpoint, hzero, by simp⟩
    · split
      · exact s.isNumeric_plainChars
      · split
        · simp
        · next hds =>
          rw [hds, List.forall_mem_singleton] at hdigits
          exact List.forall_mem_cons.mpr ⟨hdigits, hmark _⟩
        · next hds =>
          rw [hds, List.forall_mem_cons] at hdigits
          simp only [List.forall_mem_append, List.forall_mem_cons (l := _ :: _)]
          exact ⟨⟨hdigits.1, List.forall_mem_cons.mpr ⟨hpoint, hdigits.2⟩⟩, hmark _⟩

theorem isNumeric_json? {x : Float} {text : String} (h : json? x = some text) :
    ∀ c ∈ text.toList, IsNumeric c := by
  unfold json? at h
  split at h
  · next negative b _ =>
    have htext : text.toList = minus negative ++ (b.shortest .even).jsonChars := by
      rw [← Option.some.inj h]
      cases negative <;> exact String.toList_ofList
    rw [htext, List.forall_mem_append]
    refine ⟨?_, Scaled.isNumeric_jsonChars _⟩
    cases negative <;> simp [minus, IsNumeric]
  · cases h

/-- A double is written with the characters of numbers, unless it is infinite or not a number. -/
theorem plain_characters (x : Float) :
    plain x ∈ ["NaN", "inf", "-inf"] ∨ ∀ c ∈ (plain x).toList, IsNumeric c := by
  cases hx : classify x with
  | nan =>
      rw [plain, hx]
      exact .inl (by simp)
  | infinite negative =>
      rw [plain, hx]
      cases negative <;> exact .inl (by decide +kernel)
  | finite negative b =>
      rw [plain_toList hx, List.forall_mem_append]
      refine .inr ⟨?_, Scaled.isNumeric_plainChars _⟩
      cases negative <;> simp [minus, IsNumeric]

end Slipbox.Decimal
