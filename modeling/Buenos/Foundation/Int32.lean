import Mathlib.Data.Int.Basic
import Mathlib.Algebra.Order.Ring.Int

/-! The 32-bit integers of C. -/
namespace Buenos.Foundation

/-- `uint32_t` of an `int`, and back. -/
def toU32 (n : Int) : Nat := (n % 2 ^ 32).toNat
def toS32 (n : Nat) : Int := if n < 2 ^ 31 then n else n - 2 ^ 32

/-- An `int` result, wrapped around. -/
def wrap (n : Int) : Int := toS32 (toU32 n)

theorem toS32_small (small : n < 2 ^ 31) : toS32 n = n := if_pos small
theorem toU32_small (nonneg : 0 ≤ n) (small : n < 2 ^ 32) : toU32 n = n.toNat := by
  unfold toU32
  rw [Int.emod_eq_of_lt nonneg small]

theorem toS32_lt (n : Int) : toS32 (toU32 n) < 2 ^ 31 := by
  unfold toS32 toU32
  split <;> omega

theorem toU32_lt (n : Int) : toU32 n < 2 ^ 32 := by
  unfold toU32
  omega

theorem wrap_small (low : -2 ^ 31 ≤ n) (high : n < 2 ^ 31) : wrap n = n := by
  unfold wrap toS32 toU32
  split <;> omega

theorem toU32_wrap (n : Int) : toU32 (wrap n) = toU32 n := by
  unfold wrap toS32 toU32
  split <;> omega

/-- Only the last of several additions has to be wrapped. -/
theorem wrap_wrap_add (n m : Int) : wrap (wrap n + m) = wrap (n + m) := by
  unfold wrap toS32 toU32
  split <;> split <;> split <;> omega

end Buenos.Foundation
