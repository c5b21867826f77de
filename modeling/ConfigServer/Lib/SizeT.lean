/-
`size_t` arithmetic on a 64-bit host: sums and differences of naturals
reduced modulo `2 ^ 64`. Where an expression is known to stay in range the
lemmas here replace it by the plain one.
-/
import Mathlib.Algebra.Group.Nat.Defs

namespace SizeT

/-- One more than the largest `size_t`. -/
def modulus : Nat := 2 ^ 64

/-- `a + b` in `size_t`. -/
def add (a b : Nat) : Nat := (a + b) % modulus

/-- `a - b` in `size_t`: wraps around when `b` exceeds `a`. -/
def sub (a b : Nat) : Nat := (a + (modulus - b % modulus)) % modulus

theorem add_eq {a b : Nat} (h : a + b < modulus) : add a b = a + b := Nat.mod_eq_of_lt h

theorem sub_eq {a b : Nat} (hb : b ≤ a) (ha : a < modulus) : sub a b = a - b := by
  unfold sub
  rw [Nat.mod_eq_of_lt (show b < modulus by omega), show a + (modulus - b) = (a - b) + modulus by omega,
    Nat.add_mod_right, Nat.mod_eq_of_lt (by omega)]

end SizeT
