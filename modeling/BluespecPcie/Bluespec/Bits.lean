import Mathlib.Algebra.Order.Ring.Nat
import Mathlib.Data.BitVec
import Mathlib.Tactic.Common

/-! Bit vectors as numbers. -/

namespace Bluespec

/-- Concatenation as arithmetic. -/
theorem toNat_append_add {m n : Nat} (x : BitVec m) (y : BitVec n)
    : (x ++ y).toNat = x.toNat * 2 ^ n + y.toNat := by
  rw [BitVec.toNat_append, ← Nat.shiftLeft_add_eq_or_of_lt y.isLt, Nat.shiftLeft_eq]

end Bluespec
