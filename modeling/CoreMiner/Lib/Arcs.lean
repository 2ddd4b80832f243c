/-
  CoreMiner.Lib.Arcs — equal arcs on a circle of `N` points: arc `i` starts `i` widths
  after a common start `a` and takes `w` points, wrapping around at `N`. Arcs of `n`
  different indices are disjoint as soon as `n * w ≤ N`, wherever `a` is.

  The largest power of two that fits `n` times into `N` is `2 ^ ⌊log₂ (N / n)⌋`
  (`mul_two_pow_log2_le`), with the logarithm of the exact quotient
  (`log2_div_eq_floor_logb`).
-/

import Mathlib.Algebra.Order.Floor.Semifield
import Mathlib.Analysis.SpecialFunctions.Log.Base
import Mathlib.Order.CompletePartialOrder

namespace CoreMiner.Lib.Arcs

def arc (N a w i : Nat) : Set Nat := { p | ∃ t < w, p = (a + i * w + t) % N }

theorem offset_lt {N w n i t : Nat} (hN : n * w ≤ N) (hi : i < n) (ht : t < w) : i * w + t < N :=
  calc i * w + t < i * w + w := by omega
    _ = (i + 1) * w := by ring
    _ ≤ n * w := Nat.mul_le_mul_right w hi
    _ ≤ N := hN

theorem arc_disjoint {N a w n i j : Nat} (hN : n * w ≤ N) (hi : i < n) (hj : j < n) (hij : i ≠ j) :
    Disjoint (arc N a w i) (arc N a w j) := by
  rw [Set.disjoint_left]
  rintro p ⟨t, ht, rfl⟩ ⟨u, hu, hp⟩
  have hw : 0 < w := by omega
  have hcancel : i * w + t = j * w + u := by
    have hmod : i * w + t ≡ j * w + u [MOD N] := by
      apply Nat.ModEq.add_left_cancel' a
      rw [← add_assoc, ← add_assoc]
      exact hp
    exact Nat.ModEq.eq_of_lt_of_lt hmod (offset_lt hN hi ht) (offset_lt hN hj hu)
  -- The index is the quotient of the offset by the width.
  have hdiv : ∀ k v, v < w → (k * w + v) / w = k := fun k v hv => by
    rw [mul_comm, Nat.mul_add_div hw, Nat.div_eq_of_lt hv, add_zero]
  exact hij (by rw [← hdiv i t ht, hcancel, hdiv j u hu])

theorem mul_two_pow_log2_le {N n : Nat} (hn : 0 < n) (h : n ≤ N) : n * 2 ^ (N / n).log2 ≤ N :=
  calc n * 2 ^ (N / n).log2 ≤ n * (N / n) :=
        Nat.mul_le_mul_left n (Nat.log2_self_le (Nat.div_pos h hn).ne')
    _ ≤ N := Nat.mul_div_le N n

theorem log2_div_eq_floor_logb {N n : Nat} (hn : 0 < n) (h : n ≤ N) :
    ((N / n).log2 : Int) = ⌊Real.logb 2 ((N : ℝ) / n)⌋ := by
  have hn' : (0 : ℝ) < n := by exact_mod_cast hn
  have hone : (1 : ℝ) ≤ (N : ℝ) / n := by
    rw [le_div_iff₀ hn', one_mul]
    exact_mod_cast h
  have hfloor := Real.floor_logb_natCast (b := 2) (r := (N : ℝ) / n) (by positivity)
  rw [Nat.cast_two] at hfloor
  rw [hfloor, Int.log_of_one_le_right 2 hone, Nat.floor_div_natCast, Nat.floor_natCast, Nat.log2_eq_log_two]

end CoreMiner.Lib.Arcs
