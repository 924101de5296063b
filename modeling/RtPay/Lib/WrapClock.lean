import Mathlib.Algebra.Order.Group.Nat
/-!
# WrapClock — a clock of 32 bits

A counter that wraps tells two instants apart as long as they are close: the difference of their readings, taken without
a sign, is small when the first is not before the second, and large when it is.
-/
namespace WrapClock

/-- What the counter reads at an instant. -/
def reading (n : Nat) : UInt32 := UInt32.ofNat n

theorem reading_add (n : Nat) (d : UInt32) : reading n + d = reading (n + d.toNat) := by
  rw [reading, reading, UInt32.ofNat_add, UInt32.ofNat_toNat]

theorem toNat_reading (n : Nat) : (reading n).toNat = n % 2 ^ 32 := UInt32.toNat_ofNat'

/-- **Close instants are told apart** by whether the difference is below some bound. -/
theorem sub_lt_iff {a b : Nat} {half : UInt32} (hlt : a < b + half.toNat) (hle : b + half.toNat ≤ a + 2 ^ 32) :
    reading a - reading b < half ↔ b ≤ a := by
  have hsize := half.toNat_lt
  rw [UInt32.lt_iff_toNat_lt, UInt32.toNat_sub, toNat_reading, toNat_reading]
  omega

theorem sub_eq_zero_iff {a b : Nat} (h1 : a < b + 2 ^ 32) (h2 : b < a + 2 ^ 32) :
    reading a - reading b = 0 ↔ a = b := by
  rw [← UInt32.toNat_inj, UInt32.toNat_sub, toNat_reading, toNat_reading]
  show _ = 0 ↔ _
  omega

end WrapClock
