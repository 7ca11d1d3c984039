import Mathlib.Algebra.Group.Nat.Defs
import Mathlib.Algebra.Group.Int.Defs

/-! The C integer types of an LP64 machine: `size_t` as the numbers below 2^64,
`int` and `intptr_t` as signed numbers, with the conversions between them.
Signed overflow, undefined in C, wraps as the compiled code does. -/
namespace Comp304.Library.Lp64

/-- `a + b` on `size_t` and on byte pointers. -/
def add (a b : Nat) : Nat := (a + b) % 2 ^ 64

/-- `a - b` on `size_t`. -/
def sub (a b : Nat) : Nat := (a + (2 ^ 64 - b % 2 ^ 64)) % 2 ^ 64

/-- `a * b` on `size_t`. -/
def mul (a b : Nat) : Nat := (a * b) % 2 ^ 64

/-- `(int) n` for a `size_t`. -/
def toInt (n : Nat) : Int := Int.bmod n (2 ^ 32)

/-- A `size_t` passed where an `intptr_t` is expected. -/
def toIntptr (n : Nat) : Int := Int.bmod n (2 ^ 64)

/-- `(size_t) i` for a signed number: sign extension to 64 bits. -/
def toSize (i : Int) : Nat := (i % 2 ^ 64).toNat

/-- `i + j` on `int`. -/
def addInt (i j : Int) : Int := Int.bmod (i + j) (2 ^ 32)

/-- `i - j` on `int`. -/
def subInt (i j : Int) : Int := Int.bmod (i - j) (2 ^ 32)

variable {a b n : Nat}

theorem add_of_lt (small : a + b < 2 ^ 64) : add a b = a + b := Nat.mod_eq_of_lt small

theorem mul_of_lt (small : a * b < 2 ^ 64) : mul a b = a * b := Nat.mod_eq_of_lt small

theorem sub_of_le (order : b ≤ a) (small : a < 2 ^ 64) : sub a b = a - b := by
  unfold sub
  omega

theorem toIntptr_of_lt (small : n < 2 ^ 63) : toIntptr n = n := by
  unfold toIntptr
  exact Int.bmod_eq_of_le (by omega) (by omega)

theorem sub_zero_left (small : n < 2 ^ 64) : sub 0 n = if n = 0 then 0 else 2 ^ 64 - n := by
  unfold sub
  split <;> omega

private theorem bmod_complement {m : Nat} (complement : m + n = 2 ^ 64) (positive : 0 < n) :
    Int.bmod m (2 ^ 64) = -(n : Int) ∨ (2 ^ 63 ≤ n ∧ Int.bmod m (2 ^ 64) = m) := by
  rw [Int.bmod_def]
  split <;> omega

/-- `-n` computed on `size_t` and read as an `intptr_t`: the negated number, or
its complement when the number is too large to be negated. -/
theorem toIntptr_neg_cases (small : n < 2 ^ 64) : toIntptr (sub 0 n) = -(n : Int) ∨
    (2 ^ 63 ≤ n ∧ ∃ m : Nat, m + n = 2 ^ 64 ∧ toIntptr (sub 0 n) = m) := by
  rw [sub_zero_left small]
  split
  · next zero =>
    subst zero
    exact Or.inl (by decide)
  · have complement : 2 ^ 64 - n + n = 2 ^ 64 := by omega
    cases bmod_complement complement (by omega) with
    | inl negated => exact Or.inl negated
    | inr kept => exact Or.inr ⟨kept.1, _, complement, kept.2⟩

theorem toIntptr_neg (small : n < 2 ^ 63) : toIntptr (sub 0 n) = -(n : Int) := by
  cases toIntptr_neg_cases (show n < 2 ^ 64 by omega) with
  | inl negated => exact negated
  | inr large => omega

/-- From 2^63 on, what wraps around to 0 included, the number is not positive. -/
theorem toIntptr_nonpos (large : 2 ^ 63 ≤ n) (small : n ≤ 2 ^ 64) : toIntptr (n % 2 ^ 64) ≤ 0 := by
  unfold toIntptr
  rcases Nat.lt_or_ge n (2 ^ 64) with less | full
  · rw [Nat.mod_eq_of_lt less, Int.bmod_def]
    split <;> omega
  · obtain rfl : n = 2 ^ 64 := Nat.le_antisymm small full
    simp

theorem toInt_of_lt (small : n < 2 ^ 31) : toInt n = n := by
  unfold toInt
  exact Int.bmod_eq_of_le (by omega) (by omega)

theorem toSize_natCast (small : n < 2 ^ 64) : toSize (n : Int) = n := by
  unfold toSize
  omega

/-- The difference of two sizes as an `int` is their difference, wrapped once. -/
theorem subInt_toInt (order : b ≤ a) : subInt (toInt a) (toInt b) = toInt (a - b) := by
  unfold subInt toInt
  rw [← Int.sub_bmod, Int.ofNat_sub order]

/-- The sum of two sizes as an `int` is their sum, wrapped once. -/
theorem addInt_toInt (a b : Nat) : addInt (toInt a) (toInt b) = toInt (a + b) := by
  unfold addInt toInt
  rw [← Int.add_bmod, Int.natCast_add]

/-- A size comes back from an `int` as it was exactly below 2^31, the sizes that
are sign extensions apart. -/
theorem toSize_toInt_iff (small : n < 2 ^ 64 - 2 ^ 31) : toSize (toInt n) = n ↔ n < 2 ^ 31 := by
  unfold toSize toInt
  rw [Int.bmod_def]
  split <;> omega

theorem subInt_lt (i j : Int) : subInt i j < 2 ^ 31 := Int.bmod_lt (by decide)

theorem toSize_lt (i : Int) : toSize i < 2 ^ 64 := by
  unfold toSize
  omega

theorem toSize_of_pos (positive : 0 < i) (small : i < 2 ^ 31) : toSize i < 2 ^ 31 := by
  unfold toSize
  omega

end Comp304.Library.Lp64
