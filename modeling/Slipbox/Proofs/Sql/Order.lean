import Slipbox.Sql.Run

/-! The order of rows. Values of one column compare by ranks, as long as no double among them is not
a number, so the order is one in which any rows can be sorted; where it ends with the path, it tells
all rows apart. -/

namespace Slipbox.Sql

open Float.Model (UnpackedFloat)
open Std (TransCmp)

/-- Numbers that compare as doubles do, the first that differ deciding: what kind of number it is,
then exponent and mantissa. -/
def realRank : UnpackedFloat → List Int
  | .infinity .negative => [-2]
  | .finite .negative mantissa exponent _ => [-1, -exponent, -mantissa]
  | .notANumber | .zero _ => [0]
  | .finite .positive mantissa exponent _ => [1, exponent, mantissa]
  | .infinity .positive => [2]

theorem compare_natCast (m n : Nat) : compare (m : Int) n = compare m n := by
  simp only [Int.compare_eq_ite_lt, Nat.compare_eq_ite_lt, Int.ofNat_lt]

theorem compare_neg (m n : Int) : compare (-m) (-n) = (compare m n).swap := by
  rw [← Std.OrientedOrd.eq_swap]
  simp only [Int.compare_eq_ite_lt, Int.neg_lt_neg_iff]

theorem compare_unpacked {a b : UnpackedFloat} (ha : a.isNaN = false) (hb : b.isNaN = false) :
    a.compare b = some (compare (realRank a) (realRank b)) := by
  rcases a with (_ | _) | - | (_ | _) | ⟨_ | _, m, e, hm⟩ <;>
    rcases b with (_ | _) | - | (_ | _) | ⟨_ | _, m', e', hm'⟩ <;>
    first | rfl | cases ha; done | cases hb; done | skip
  · change some ((compare e e').then (compare m m')).swap =
      some (compare [-1, -e, -(m : Int)] [-1, -e', -(m' : Int)])
    simp [compare_neg, compare_natCast, Ordering.swap_then]
  · change some ((compare e e').then (compare m m')) =
      some (compare [1, e, (m : Int)] [1, e', (m' : Int)])
    simp [compare_natCast]

theorem lt_iff {x y : Float} :
    x < y ↔ x.toModel.unpack.compare y.toModel.unpack = some .lt :=
  decide_eq_true_iff.trans beq_iff_eq

theorem compareReals_eq {x y : Float} (hx : x.isNaN = false) (hy : y.isNaN = false) :
    compareReals x y = compare (realRank x.toModel.unpack) (realRank y.toModel.unpack) := by
  have hxy := compare_unpacked (a := x.toModel.unpack) (b := y.toModel.unpack) hx hy
  have hyx := compare_unpacked (a := y.toModel.unpack) (b := x.toModel.unpack) hy hx
  rw [Std.OrientedOrd.eq_swap] at hyx
  simp only [compareReals, lt_iff, hxy, hyx, Option.some.injEq, Ordering.swap_eq_lt]
  cases compare (realRank x.toModel.unpack) (realRank y.toModel.unpack) <;> rfl

namespace Value

/-- The kind of a value and what a number among them is worth. -/
def rank : Value → List Int
  | .null => [0]
  | .integer n => [1, n]
  | .real x => 1 :: realRank x.toModel.unpack
  | .text _ => [2]

def letters : Value → String
  | .text s => s
  | _ => ""

/-- The order of values by kind, by number and by text. -/
def ranked : Value → Value → Ordering :=
  compareLex (compareOn rank) (compareOn letters)

/-- Whether a column of the affinity may hold the value. -/
def Fits (a : Affinity) : Value → Prop
  | .null => True
  | .integer _ => a = .integer
  | .real x => a = .real ∧ x.isNaN = false
  | .text _ => a = .text

/-- In a column the order is by ranks: whole numbers and doubles do not meet there. -/
theorem order_eq_ranked {a : Affinity} {u v : Value} (hu : u.Fits a) (hv : v.Fits a) :
    u.order .binary v = ranked u v := by
  cases u with
  | null => cases v <;> rfl
  | integer m =>
      cases v with
      | null => rfl
      | integer n => simp [order, ranked, compareLex, compareOn, rank, letters]
      | real y => exact absurd (hu.symm.trans hv.1) (by decide)
      | text t => rfl
  | real x =>
      cases v with
      | null => rfl
      | integer n => exact absurd (hu.1.symm.trans hv) (by decide)
      | real y =>
          simp [order, ranked, compareLex, compareOn, rank, letters, compareReals_eq hu.2 hv.2]
      | text t => rfl
  | text s =>
      cases v with
      | null | integer _ | real _ => rfl
      | text t =>
          simp [order, ranked, compareLex, compareOn, rank, letters, Collation.order]

theorem eq_of_ranked_text {s t : String} (h : ranked (.text s) (.text t) = .eq) : s = t := by
  simpa [ranked, compareLex, compareOn, rank, letters] using h

end Value

end Sql

/-- The confidence, if there is one, is a number, so that it has its place in an order. -/
def Metadata.Sortable (m : Metadata) : Prop :=
  ∀ x, m.confidence = some x → x.isNaN = false

namespace Sql

theorem fits_optional (o : Option String) : (optional o).Fits .text := by
  cases o with
  | none => trivial
  | some s => rfl

theorem fits_column {row : NoteRow} (h : row.info.Sortable) (c : Column) :
    ((Scope.mk row none).column c).Fits c.affinity := by
  cases c with
  | id | path | title | verified | content => rfl
  | type | created | modified | source => exact fits_optional _
  | tagNote | tag => trivial
  | confidence =>
      rw [Scope.column]
      cases hx : row.info.confidence with
      | none => trivial
      | some x => exact ⟨rfl, h x hx⟩

namespace Select

open Std (TransCmp OrientedCmp)

/-- The comparison of two rows by what they have in a column. -/
def rankedBy (c : Column) (a b : NoteRow) : Ordering :=
  ((Scope.mk a none).column c).ranked ((Scope.mk b none).column c)

instance (c : Column) : TransCmp (rankedBy c) :=
  inferInstanceAs (TransCmp (compareLex
    (compareOn fun row => ((Scope.mk row none).column c).rank)
    (compareOn fun row => ((Scope.mk row none).column c).letters)))

/-- The comparison of two rows by the terms of an order, the first that tells them apart
deciding. -/
def ranking : List (Column × Bool) → NoteRow → NoteRow → Ordering
  | [], _, _ => .eq
  | (c, descending) :: more, a, b =>
    (if descending then rankedBy c b a else rankedBy c a b).then (ranking more a b)

instance transCmp_ranking : (terms : List (Column × Bool)) → TransCmp (ranking terms)
  | [] => { eq_swap := rfl, isLE_trans := fun _ _ => rfl }
  | (c, descending) :: more =>
    have := transCmp_ranking more
    match descending with
    | false => inferInstanceAs (TransCmp (compareLex (rankedBy c) (ranking more)))
    | true => inferInstanceAs (TransCmp (compareLex (fun a b => rankedBy c b a) (ranking more)))

theorem before_eq_isLE (terms : List (Column × Bool)) {a b : NoteRow} (ha : a.info.Sortable)
    (hb : b.info.Sortable) : before terms a b = (ranking terms a b).isLE := by
  induction terms with
  | nil => rfl
  | cons term more ih =>
      obtain ⟨c, descending⟩ := term
      rw [before, ranking, Value.order_eq_ranked (fits_column ha c) (fits_column hb c),
        Value.order_eq_ranked (fits_column hb c) (fits_column ha c), ih, ← rankedBy, ← rankedBy]
      generalize (if descending = true then _ else _ : Ordering) = first
      cases first <;> rfl

section Rows

variable {terms : List (Column × Bool)} {a b c : NoteRow}

theorem before_trans (ha : a.info.Sortable) (hb : b.info.Sortable) (hc : c.info.Sortable)
    (hab : before terms a b = true) (hbc : before terms b c = true) :
    before terms a c = true := by
  rw [before_eq_isLE _ ha hb] at hab
  rw [before_eq_isLE _ hb hc] at hbc
  rw [before_eq_isLE _ ha hc]
  exact TransCmp.isLE_trans hab hbc

theorem before_total (ha : a.info.Sortable) (hb : b.info.Sortable) :
    (before terms a b || before terms b a) = true := by
  have hswap : ranking terms b a = (ranking terms a b).swap := OrientedCmp.eq_swap
  rw [before_eq_isLE _ ha hb, before_eq_isLE _ hb ha, hswap]
  cases ranking terms a b <;> rfl

/-- An order in which paths have a part tells rows with different paths apart. -/
theorem path_eq_of_before {descending : Bool} (hpath : (.path, descending) ∈ terms)
    (ha : a.info.Sortable) (hb : b.info.Sortable) (hab : before terms a b = true)
    (hba : before terms b a = true) : a.path = b.path := by
  have hsame : ranking terms a b = .eq := by
    rw [before_eq_isLE _ ha hb] at hab
    rw [before_eq_isLE _ hb ha] at hba
    exact OrientedCmp.isLE_antisymm hab hba
  clear hab hba
  induction terms with
  | nil => cases hpath
  | cons term more ih =>
      rw [ranking, Ordering.then_eq_eq] at hsame
      rcases List.mem_cons.mp hpath with rfl | hmore
      · have hfirst := hsame.1
        cases descending
        · exact Value.eq_of_ranked_text hfirst
        · exact (Value.eq_of_ranked_text hfirst).symm
      · exact ih hmore hsame.2

end Rows

end Select

end Sql

end Slipbox
