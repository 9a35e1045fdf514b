/-! When computations that may fail succeed. -/

namespace Slipbox

variable {ε α β : Type}

theorem bind_eq_ok {x : Except ε α} {f : α → Except ε β} {b : β} :
    x >>= f = .ok b ↔ ∃ a, x = .ok a ∧ f a = .ok b := by
  cases x <;> simp [bind, Except.bind]

theorem map_eq_ok {x : Except ε α} {f : α → β} {b : β} :
    x.map f = .ok b ↔ ∃ a, x = .ok a ∧ f a = b := by
  cases x <;> simp [Except.map]

theorem ok_bind {a : α} {f : α → Except ε β} : .ok a >>= f = f a := rfl

/-- A value that may be absent is computed only when it is there. -/
theorem optionMapM_eq_ok {o : Option α} {f : α → Except ε β} {o' : Option β} :
    o.mapM f = .ok o' ↔
      (o = none ∧ o' = none) ∨ ∃ a b, o = some a ∧ f a = .ok b ∧ o' = some b := by
  cases o with
  | none =>
      change Except.ok none = .ok o' ↔ _
      simp [eq_comm]
  | some a =>
      change (f a).map some = .ok o' ↔ _
      rw [map_eq_ok]
      simp [eq_comm]

end Slipbox
