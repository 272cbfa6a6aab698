import Mathlib.Data.Nat.Bitwise
import Mathlib.Tactic.Ring

/-! Fields of a 64-bit word: packing by shift and or, and reading back by shift and mask. -/
namespace WordFields

theorem toNat_shiftRight {x w : UInt64} (hw : w.toNat < 64) :
    (x >>> w).toNat = x.toNat / 2 ^ w.toNat := by
  rw [UInt64.toNat_shiftRight, Nat.mod_eq_of_lt hw, Nat.shiftRight_eq_div_pow]

theorem toNat_pack {hi lo w : UInt64} (hw : w.toNat < 64) (hhi : hi.toNat < 2 ^ (64 - w.toNat))
    (hlo : lo.toNat < 2 ^ w.toNat) :
    ((hi <<< w) ||| lo).toNat = hi.toNat * 2 ^ w.toNat + lo.toNat := by
  have hwrap : hi.toNat <<< w.toNat < 2 ^ 64 := by
    rw [Nat.shiftLeft_eq]
    calc hi.toNat * 2 ^ w.toNat < 2 ^ (64 - w.toNat) * 2 ^ w.toNat :=
          Nat.mul_lt_mul_of_pos_right hhi (Nat.two_pow_pos _)
      _ = 2 ^ 64 := by rw [← pow_add, Nat.sub_add_cancel hw.le]
  rw [UInt64.toNat_or, UInt64.toNat_shiftLeft, Nat.mod_eq_of_lt hw, Nat.mod_eq_of_lt hwrap,
    ← Nat.shiftLeft_add_eq_or_of_lt hlo, Nat.shiftLeft_eq]

theorem toNat_and_byte (x : UInt64) : (x &&& 255).toNat = x.toNat % 2 ^ 8 := by
  rw [UInt64.toNat_and]
  exact Nat.and_two_pow_sub_one_eq_mod x.toNat 8

theorem and_mask (x j k : ℕ) : x &&& ((2 ^ k - 1) <<< j) = (x / 2 ^ j % 2 ^ k) <<< j := by
  refine Nat.eq_of_testBit_eq fun i => ?_
  simp only [Nat.testBit_and, Nat.testBit_shiftLeft, Nat.testBit_two_pow_sub_one,
    Nat.testBit_mod_two_pow, Nat.testBit_div_two_pow]
  rcases Nat.lt_or_ge i j with h | h
  · simp [Nat.not_le.mpr h]
  · simp [h, Nat.sub_add_cancel h, Bool.and_comm]

end WordFields
