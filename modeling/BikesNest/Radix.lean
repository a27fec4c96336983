import Mathlib

/-! Numerals of a fixed width over an alphabet, the most significant symbol first. -/

namespace Radix

/-- The symbols of a positional notation, with the reader that knows them. -/
structure Alphabet where
  base : ℕ
  symbol : ℕ → Char
  value : Char → Option ℕ
  positive : 0 < base
  value_symbol : ∀ d < base, value (symbol d) = some d

variable (A : Alphabet)

/-- The last `k` digits of `n`. -/
def write : ℕ → ℕ → List Char
  | 0, _ => []
  | k + 1, n => write k (n / A.base) ++ [A.symbol (n % A.base)]

def read (cs : List Char) : Option ℕ :=
  cs.foldlM (fun acc c => (A.value c).map fun d => acc * A.base + d) 0

theorem length_write (k n : ℕ) : (write A k n).length = k := by
  induction k generalizing n with
  | zero => rfl
  | succ k ih => simp [write, ih]

/-- What is read back is the number modulo what the width can hold. -/
theorem read_write (k n : ℕ) : read A (write A k n) = some (n % A.base ^ k) := by
  induction k generalizing n with
  | zero => simp [write, read, Nat.mod_one]
  | succ k ih =>
    have front := ih (n / A.base)
    simp only [read] at front
    have digit := A.value_symbol (n % A.base) (Nat.mod_lt n A.positive)
    have whole : n / A.base % A.base ^ k * A.base + n % A.base = n % A.base ^ (k + 1) := by
      rw [Nat.pow_succ, Nat.mul_comm (A.base ^ k) A.base, Nat.mod_mul, Nat.mul_comm A.base]
      omega
    simp [write, read, List.foldlM_append, front, digit, whole]

end Radix
