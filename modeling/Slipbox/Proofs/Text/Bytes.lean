import Mathlib.Data.List.Lex
import Mathlib.Data.String.Basic
import Mathlib.Order.Basic
import Slipbox.Text.Blank

/-! The UTF-8 bytes of texts, their number and their order. The larger of two characters has the
larger bytes, and the bytes of neither are the beginning of the other's, so texts compare by their
bytes as they do by their characters, and one begins with another in its bytes as it does in its
characters. -/

namespace Slipbox.Text

theorem byteLength_toList (text : String) : byteLength text.toList = text.utf8ByteSize := by
  have hsize (cs : List Char) : byteLength cs = (String.ofList cs).utf8ByteSize := by
    induction cs with
    | nil => rfl
    | cons c cs ih =>
        rw [byteLength, ih, String.ofList_cons, String.utf8ByteSize_append,
          String.utf8ByteSize_singleton]
  rw [hsize, String.ofList_toList]

theorem length_le_byteLength (cs : List Char) : cs.length ≤ byteLength cs := by
  induction cs with
  | nil => exact Nat.le_refl 0
  | cons c cs ih =>
      have hsize := c.utf8Size_pos
      rw [List.length_cons, byteLength]
      omega

theorem byteLength_le (cs : List Char) : byteLength cs ≤ 4 * cs.length := by
  induction cs with
  | nil => exact Nat.le_refl 0
  | cons c cs ih =>
      have hsize := c.utf8Size_le_four
      rw [List.length_cons, byteLength]
      omega

/-- The bytes of a text in UTF-8. -/
def bytes (s : String) : List UInt8 :=
  s.toList.flatMap String.utf8EncodeChar

/-- Numbers compare by their digits to the base 64, the higher ones first. -/
theorem lt_digits {m n : Nat} (h : m < n) : m / 262144 < n / 262144 ∨
    m / 262144 = n / 262144 ∧ (m / 4096 % 64 < n / 4096 % 64 ∨
      m / 4096 % 64 = n / 4096 % 64 ∧ (m / 64 % 64 < n / 64 % 64 ∨
        m / 64 % 64 = n / 64 % 64 ∧ m % 64 < n % 64)) := by
  have hstep {m n : Nat} (h : m < n) : m / 64 < n / 64 ∨ m / 64 = n / 64 ∧ m % 64 < n % 64 := by
    omega
  have hfirst (m : Nat) : m / 64 / 64 = m / 4096 := Nat.div_div_eq_div_mul ..
  have hsecond (m : Nat) : m / 4096 / 64 = m / 262144 := Nat.div_div_eq_div_mul ..
  rcases hstep h with h | ⟨heq, h⟩
  · rcases hstep h with h | ⟨heq, h⟩
    · rw [hfirst, hfirst] at h
      rcases hstep h with h | ⟨heq, h⟩
      · rw [hsecond, hsecond] at h
        exact .inl h
      · rw [hsecond, hsecond] at heq
        exact .inr ⟨heq, .inl h⟩
    · omega
  · omega

theorem append_lt_append_of_lt {c d : Char} (h : c < d) (u v : List UInt8) :
    String.utf8EncodeChar c ++ u < String.utf8EncodeChar d ++ v := by
  have hlt : c.val.toNat < d.val.toNat := h
  have hd : d.val.toNat < 1114112 := by
    have hvalid : d.val.toNat < 0xD800 ∨ 0xDFFF < d.val.toNat ∧ d.val.toNat < 0x110000 := d.valid
    omega
  have hdigits := lt_digits hlt
  simp only [String.utf8EncodeChar]
  generalize c.val.toNat = m at *
  generalize d.val.toNat = n at *
  repeat' split
  all_goals
    simp (disch := omega) only [List.cons_append, List.nil_append, List.cons_lt_cons_iff,
      UInt8.lt_iff_toNat_lt, ← UInt8.toNat_inj, UInt8.toNat_ofNat', Nat.mod_eq_of_lt]
    omega

theorem append_ne_append_of_ne {c d : Char} (h : c ≠ d) (u v : List UInt8) :
    String.utf8EncodeChar c ++ u ≠ String.utf8EncodeChar d ++ v := by
  intro hsame
  rcases lt_or_gt_of_ne h with hlt | hgt
  · have hless := append_lt_append_of_lt hlt u v
    rw [hsame] at hless
    exact List.lt_irrefl _ hless
  · have hless := append_lt_append_of_lt hgt v u
    rw [hsame] at hless
    exact List.lt_irrefl _ hless

theorem flatMap_lt_flatMap {cs ds : List Char} (h : cs < ds) :
    cs.flatMap String.utf8EncodeChar < ds.flatMap String.utf8EncodeChar := by
  induction cs generalizing ds with
  | nil =>
      cases ds with
      | nil => exact absurd h (List.lt_irrefl _)
      | cons d ds =>
          cases hbytes : (d :: ds).flatMap String.utf8EncodeChar with
          | nil => simp at hbytes
          | cons b bs => exact List.nil_lt_cons b bs
  | cons c cs ih =>
      cases ds with
      | nil => cases h
      | cons d ds =>
          rw [List.flatMap_cons, List.flatMap_cons]
          rcases List.cons_lt_cons_iff.mp h with hlt | ⟨rfl, hlt⟩
          · exact append_lt_append_of_lt hlt _ _
          · exact List.append_left_lt (ih hlt)

/-- Texts compare by their bytes as they do by their characters. -/
theorem bytes_lt_iff {s t : String} : bytes s < bytes t ↔ s < t := by
  rw [String.lt_iff_toList_lt]
  constructor
  · intro h
    rcases lt_trichotomy s.toList t.toList with hlt | heq | hgt
    · exact hlt
    · rw [bytes, heq] at h
      exact absurd h (List.lt_irrefl _)
    · exact absurd h (List.lt_asymm (flatMap_lt_flatMap hgt))
  · exact flatMap_lt_flatMap

/-- The bytes of a text begin with those of another if the text begins with the other. -/
theorem bytes_prefix_iff {s t : String} : bytes s <+: bytes t ↔ s.toList <+: t.toList := by
  rw [bytes, bytes]
  generalize s.toList = cs
  generalize t.toList = ds
  constructor
  · intro h
    induction cs generalizing ds with
    | nil => exact List.nil_prefix
    | cons c cs ih =>
        cases ds with
        | nil => simp at h
        | cons d ds =>
            obtain ⟨rest, hrest⟩ := h
            rw [List.flatMap_cons, List.flatMap_cons, List.append_assoc] at hrest
            obtain rfl : c = d := by
              by_contra hne
              exact append_ne_append_of_ne hne _ _ hrest
            exact List.cons_prefix_cons.mpr ⟨rfl, ih _ ⟨rest, List.append_cancel_left hrest⟩⟩
  · intro h
    obtain ⟨rest, rfl⟩ := h
    rw [List.flatMap_append]
    exact List.prefix_append _ _

end Slipbox.Text
