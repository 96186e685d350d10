/-!
# Powers of two and ten

Bounds of words and scales of decimals are powers of two fixed bases.
-/
namespace Quire

/-- The power of two: the first natural number that does not fit in so many bits. -/
def twoPow (bits : Nat) : Nat := Nat.pow 2 bits

/-- The power of ten: the first natural number with more than so many digits. -/
def tenPow (digits : Nat) : Nat := Nat.pow 10 digits

theorem twoPow_succ (n : Nat) : twoPow (n + 1) = 2 * twoPow n := by
  rw [twoPow, twoPow, Nat.mul_comm]
  rfl

theorem tenPow_succ (n : Nat) : tenPow (n + 1) = 10 * tenPow n := by
  rw [tenPow, tenPow, Nat.mul_comm]
  rfl

end Quire
