/-
# Sums in a machine word

Sums and differences of 64-bit counters are taken modulo the size of the word: what
does not fit wraps. A sum that fits is the true one, no sum is more than that, and
what moves from one summand to the other leaves the sum as it was, wrapped or not.
-/

import Mathlib.Algebra.Ring.Nat

namespace BurnLm.Math

/-- A sum in a machine word. -/
def addWord (a b : ℕ) : ℕ := (a + b) % 2 ^ 64

/-- A difference in a machine word. -/
def subWord (a b : ℕ) : ℕ := (a + (2 ^ 64 - b % 2 ^ 64)) % 2 ^ 64

theorem addWord_lt (a b : ℕ) : addWord a b < 2 ^ 64 := Nat.mod_lt _ (by decide)

theorem addWord_le (a b : ℕ) : addWord a b ≤ a + b := Nat.mod_le _ _

theorem addWord_of_lt {a b : ℕ} (hfits : a + b < 2 ^ 64) : addWord a b = a + b :=
  Nat.mod_eq_of_lt hfits

/-- Only the true sum matters. -/
theorem addWord_congr {a b c d : ℕ} (hsum : a + b = c + d) : addWord a b = addWord c d := by
  rw [addWord, addWord, hsum]

/-- Taking away after adding is adding the rest, even if the sum wrapped between. -/
theorem subWord_addWord (a : ℕ) {b c : ℕ} (hle : c ≤ b) :
    subWord (addWord a b) c = addWord a (b - c) := by
  unfold subWord addWord
  omega

end BurnLm.Math
