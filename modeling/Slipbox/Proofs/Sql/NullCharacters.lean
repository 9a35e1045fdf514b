import Mathlib.Data.List.TakeWhile
import Slipbox.Proofs.Text.Bytes
import Slipbox.Proofs.Text.Lowercase
import Slipbox.Sql.Like

/-! Texts with null characters. What stands before the first of them is the whole text just if there
is none, and then only if it takes as many bytes. -/

namespace Slipbox

namespace Text

theorem byteLength_lower (cs : List Char) : byteLength (cs.map Char.toLower) = byteLength cs := by
  have hsize (c : Char) : c.toLower.utf8Size = c.utf8Size := apply_toLower (by decide +kernel) c
  induction cs with
  | nil => rfl
  | cons c cs ih => rw [List.map_cons, byteLength, byteLength, hsize, ih]

theorem mem_lower_null {cs : List Char} : '\x00' ∈ cs.map Char.toLower ↔ '\x00' ∈ cs := by
  let isNull (c : Char) : Bool := c = '\x00'
  have hnull (c : Char) : isNull c.toLower = isNull c := apply_toLower (by decide +kernel) c
  simp only [isNull, decide_eq_decide] at hnull
  simp [hnull]

end Text

namespace Sql

open Text (asciiLower byteLength byteLength_toList)

variable {s t : String}

theorem beforeNull_prefix (s : String) : beforeNull s <+: s.toList :=
  List.takeWhile_prefix _

theorem null_not_mem_beforeNull (s : String) : '\x00' ∉ beforeNull s := by
  intro h
  simpa using List.mem_takeWhile_imp h

theorem beforeNull_eq (h : '\x00' ∉ s.toList) : beforeNull s = s.toList := by
  rw [beforeNull, List.takeWhile_eq_self_iff]
  intro c hc
  simp only [bne_iff_ne]
  rintro rfl
  exact h hc

/-- A null character and what is behind it take bytes. -/
theorem null_not_mem_of_byteLength (h : byteLength s.toList ≤ byteLength (beforeNull s)) :
    '\x00' ∉ s.toList := by
  have hrun (cs : List Char) (hcs : byteLength cs ≤ byteLength (cs.takeWhile (· != '\x00'))) :
      '\x00' ∉ cs := by
    induction cs with
    | nil => exact List.not_mem_nil
    | cons c cs ih =>
        by_cases hc : c = '\x00'
        · subst hc
          exact absurd hcs (by simp [byteLength, Char.utf8Size])
        · rw [List.takeWhile_cons_of_pos (by simpa using hc), byteLength, byteLength] at hcs
          rw [List.mem_cons, not_or]
          exact ⟨Ne.symm hc, ih (by omega)⟩
  exact hrun s.toList h

/-- Equality without regard to letter case. -/
theorem nocase_eq_iff : Collation.nocase.order s t = .eq ↔
    (beforeNull s).map Char.toLower = (beforeNull t).map Char.toLower ∧
      s.utf8ByteSize = t.utf8ByteSize := by
  rw [Collation.order, Ordering.then_eq_eq, Std.LawfulEqOrd.compare_eq_iff_eq,
    Std.LawfulEqOrd.compare_eq_iff_eq]

/-- A text without null characters is equal to those that differ in the case of ASCII letters. -/
theorem nocase_eq_iff_asciiLower (ht : '\x00' ∉ t.toList) :
    Collation.nocase.order s t = .eq ↔ asciiLower s = asciiLower t := by
  rw [nocase_eq_iff, beforeNull_eq ht, ← byteLength_toList, ← byteLength_toList]
  constructor
  · rintro ⟨hlower, hsize⟩
    have hbefore := congrArg byteLength hlower
    rw [Text.byteLength_lower, Text.byteLength_lower, ← hsize] at hbefore
    rw [beforeNull_eq (null_not_mem_of_byteLength (Nat.le_of_eq hbefore.symm))] at hlower
    exact hlower
  · intro hlower
    have hs : '\x00' ∉ s.toList := by
      rw [← Text.mem_lower_null] at ht ⊢
      rwa [show s.toList.map Char.toLower = t.toList.map Char.toLower from hlower]
    have hsize := congrArg byteLength hlower
    rw [asciiLower, asciiLower, Text.byteLength_lower, Text.byteLength_lower] at hsize
    rw [beforeNull_eq hs]
    exact ⟨hlower, hsize⟩

end Sql

end Slipbox
