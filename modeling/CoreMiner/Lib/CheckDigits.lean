/-
  CoreMiner.Lib.CheckDigits — numerals that agree modulo `m`.

  For a modulus that is coprime to the base, numerals that differ in one block of digits agree only
  if the blocks do (`replaced_modEq`). If the modulus is coprime to a power of the base less one,
  neighbouring blocks of that many digits can change places only if they agree (`swapped_modEq`).
-/

import CoreMiner.Lib.Digits
import Mathlib.Data.Nat.ModEq

namespace CoreMiner.Lib.Digits

variable {b m : Nat}

/-- What is in front of a block and what is behind it does not matter. -/
theorem replaced_modEq (hm : m.Coprime b) {front x y back : List Nat} (hlen : x.length = y.length)
    (h : value b (front ++ x ++ back) ≡ value b (front ++ y ++ back) [MOD m]) : value b x ≡ value b y [MOD m] := by
  rw [value_append, value_append, value_append, value_append, hlen] at h
  have hpow : m.gcd (b ^ back.length) = 1 := Nat.Coprime.pow_right _ hm
  have hfront := Nat.ModEq.cancel_right_of_coprime hpow (Nat.ModEq.add_right_cancel' _ h)
  exact Nat.ModEq.add_left_cancel' _ hfront

theorem swapped_modEq (hb : 0 < b) {x y : List Nat} (hlen : x.length = y.length)
    (hm : m.Coprime (b ^ y.length - 1)) (h : value b (x ++ y) ≡ value b (y ++ x) [MOD m]) :
    value b x ≡ value b y [MOD m] := by
  rw [value_append, value_append, hlen] at h
  obtain ⟨k, hk⟩ : ∃ k, b ^ y.length = k + 1 := Nat.exists_eq_succ_of_ne_zero (Nat.pow_pos hb).ne'
  rw [hk, Nat.add_sub_cancel] at hm
  rw [hk] at h
  -- Both blocks are added once on either side.
  have hdiff : value b x * k + (value b x + value b y) ≡ value b y * k + (value b x + value b y) [MOD m] := by
    calc value b x * k + (value b x + value b y) = value b x * (k + 1) + value b y := by ring
      _ ≡ value b y * (k + 1) + value b x [MOD m] := h
      _ = value b y * k + (value b x + value b y) := by ring
  exact Nat.ModEq.cancel_right_of_coprime hm (Nat.ModEq.add_right_cancel' _ hdiff)

end CoreMiner.Lib.Digits
