import Mathlib

/-!
# Rounding of machine words

Rounding up to a multiple, as it is usually written: `(x + g - 1) / g * g`. It is exact when `x + g` is at most the number of words, and zero
otherwise.
-/

namespace Vmem.Words

variable {w : Nat} {x g : BitVec w}

/-- Rounding up to a multiple does not wrap when there is room for a whole unit. -/
theorem toNat_roundUp (hg : g ≠ 0) (h : x.toNat + g.toNat ≤ 2 ^ w) :
    ((x + g - 1) / g * g).toNat = x.toNat ⌈/⌉ g.toNat * g.toNat := by
  have hpos : 0 < g.toNat := Nat.pos_of_ne_zero fun h0 => hg (BitVec.eq_of_toNat_eq h0)
  have hw : 1 < 2 ^ w := by
    have := g.isLt
    omega
  have hone : (1 : BitVec w).toNat = 1 := Nat.mod_eq_of_lt hw
  have hsum : (x + g - 1).toNat = x.toNat + g.toNat - 1 := by
    rw [BitVec.toNat_sub, BitVec.toNat_add, hone]
    have hx := x.isLt
    have hgl := g.isLt
    rcases h.lt_or_eq with hlt | heq
    · rw [Nat.mod_eq_of_lt hlt, show 2 ^ w - 1 + (x.toNat + g.toNat) = x.toNat + g.toNat - 1 + 2 ^ w by omega, Nat.add_mod_right,
        Nat.mod_eq_of_lt (by omega)]
    · rw [heq, Nat.mod_self, Nat.add_zero, Nat.mod_eq_of_lt (by omega)]
  rw [BitVec.toNat_mul, BitVec.toNat_udiv, hsum, Nat.ceilDiv_eq_add_pred_div]
  exact Nat.mod_eq_of_lt (lt_of_le_of_lt (Nat.div_mul_le_self _ _) (by omega))

/-- What is rounded up is a multiple, also when the sum wraps. -/
theorem dvd_roundUp (x g : BitVec w) : g.toNat ∣ ((x + g - 1) / g * g).toNat := by
  have hle := Nat.div_mul_le_self (x + g - 1).toNat g.toNat
  rw [BitVec.toNat_mul, BitVec.toNat_udiv, Nat.mod_eq_of_lt (hle.trans_lt (x + g - 1).isLt)]
  exact Nat.dvd_mul_left _ _

/-- When there is none, it wraps to zero. -/
theorem roundUp_wrapped (hg : g ≠ 0) (h : 2 ^ w < x.toNat + g.toNat) : (x + g - 1) / g * g = 0 := by
  have hpos : 0 < g.toNat := Nat.pos_of_ne_zero fun h0 => hg (BitVec.eq_of_toNat_eq h0)
  have hx := x.isLt
  have hgl := g.isLt
  have hw : 1 < 2 ^ w := by omega
  have hone : (1 : BitVec w).toNat = 1 := Nat.mod_eq_of_lt hw
  have hsum : (x + g - 1).toNat = x.toNat + g.toNat - 1 - 2 ^ w := by
    rw [BitVec.toNat_sub, BitVec.toNat_add, hone, show x.toNat + g.toNat = x.toNat + g.toNat - 2 ^ w + 2 ^ w by omega, Nat.add_mod_right,
      Nat.mod_eq_of_lt (by omega : x.toNat + g.toNat - 2 ^ w < 2 ^ w),
      show 2 ^ w - 1 + (x.toNat + g.toNat - 2 ^ w) = x.toNat + g.toNat - 1 - 2 ^ w + 2 ^ w by omega, Nat.add_mod_right,
      Nat.mod_eq_of_lt (by omega)]
    omega
  apply BitVec.eq_of_toNat_eq
  rw [BitVec.toNat_mul, BitVec.toNat_udiv, hsum, Nat.div_eq_of_lt (by omega), Nat.zero_mul, Nat.zero_mod]
  rfl

end Vmem.Words
