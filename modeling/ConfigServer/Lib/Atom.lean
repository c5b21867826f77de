/-
An atomic cell that holds an immutable value in a box. Readers keep the box
they loaded; a writer publishes a new value only if the cell still holds the
box it loaded. Boxes are compared by identity: a number that grows with each
publication, since no box is reused while somebody still holds it.
-/
import Mathlib.Order.Defs.Unbundled

/-- A value with the identity of its box. -/
structure Box (α : Type*) where
  impl : Nat
  value : α
deriving DecidableEq

namespace Box

variable {α : Type*}

/-- Compare and publish: `none` when the cell no longer holds the box `oldv`. -/
def publish (cell oldv : Box α) (new : α) : Option (Box α) :=
  if oldv.impl = cell.impl then some ⟨cell.impl + 1, new⟩ else none

/-- `oldv` was loaded from the cell at some moment, and since then the value
has only changed along `R`. -/
structure Held (R : α → α → Prop) (cell oldv : Box α) : Prop where
  le : oldv.impl ≤ cell.impl
  same : oldv.impl = cell.impl → oldv.value = cell.value
  rel : R oldv.value cell.value

variable {R : α → α → Prop} {cell oldv : Box α} {new : α}

theorem publish_eq_some {cell' : Box α} :
    cell.publish oldv new = some cell' ↔ oldv.impl = cell.impl ∧ cell' = ⟨cell.impl + 1, new⟩ := by
  simp [publish, eq_comm]

theorem publish_eq_none : cell.publish oldv new = none ↔ oldv.impl ≠ cell.impl := by
  simp [publish]

theorem Held.refl [Std.Refl R] (cell : Box α) : Held R cell cell :=
  ⟨Nat.le_refl _, fun _ => rfl, Std.Refl.refl _⟩

/-- A publication along `R` leaves every box held so. -/
theorem Held.publish [IsTrans α R] (h : Held R cell oldv) (hnew : R cell.value new) :
    Held R ⟨cell.impl + 1, new⟩ oldv where
  le := Nat.le_succ_of_le h.le
  same heq := by
    have hle := h.le
    dsimp only at heq
    omega
  rel := IsTrans.trans _ _ _ h.rel hnew

end Box
