/-!
Numbers of 64 bits.

Identifiers, times and counts are of 64 bits: what an operation yields beyond them keeps its lowest
64 bits. Within the range nothing changes (`signed64_of_mem`, `unsigned64_of_lt`).
-/

namespace RoadMatching

/-- The integer from `-2 ^ 63` to `2 ^ 63 - 1` with the lowest 64 bits of `n`. -/
def signed64 (n : Int) : Int := Int.bmod n 18446744073709551616

/-- The natural number with the lowest 64 bits of `n`. -/
def unsigned64 (n : Nat) : Nat := n % 18446744073709551616

theorem signed64_of_mem {n : Int} (h₀ : -9223372036854775808 ≤ n)
    (h₁ : n < 9223372036854775808) : signed64 n = n := by
  unfold signed64
  rw [Int.bmod_def]
  omega

theorem unsigned64_of_lt {n : Nat} (h : n < 18446744073709551616) : unsigned64 n = n :=
  Nat.mod_eq_of_lt h

end RoadMatching
