/-
  CoreMiner.Lib.RoundRobin — taking turns.

  Each of `n` places has `r` turns before the next place, in cyclic order, has its turns.
  The state is the place whose turn it was last and the turns it has had since it became
  its turn; before the first turn that is place 0 and none. The turn number `k`, counted
  from 0, is that of place `k / r % n` (`iterate_turn`).
-/

import Mathlib.Logic.Function.Iterate

namespace CoreMiner.Lib.RoundRobin

variable {n r : Nat}

def turn (n r : Nat) (x : Nat × Nat) : Nat × Nat := if r ≤ x.2 then ((x.1 + 1) % n, 1) else (x.1, x.2 + 1)

theorem turn_turn (hr : 0 < r) (k : Nat) :
    turn n r (k / r % n, k % r + 1) = ((k + 1) / r % n, (k + 1) % r + 1) := by
  have hlt := Nat.mod_lt k hr
  have hk := Nat.div_add_mod' k r
  by_cases hlast : r ≤ k % r + 1
  · have hround : k + 1 = r * (k / r + 1) := by
      rw [Nat.mul_comm, Nat.succ_mul]
      omega
    rw [turn, if_pos hlast, hround, Nat.mul_div_cancel_left _ hr, Nat.mul_mod_right, Nat.mod_add_mod]
  · have hmod : (k + 1) % r = k % r + 1 := by
      rw [Nat.add_mod, Nat.mod_eq_of_lt (show 1 < r by omega), Nat.mod_eq_of_lt (by omega)]
    have hdiv : (k + 1) / r = k / r := Nat.div_eq_of_lt_le (by omega) (by rw [Nat.succ_mul]; omega)
    rw [turn, if_neg hlast, hmod, hdiv]

theorem iterate_turn (hr : 0 < r) (k : Nat) : (turn n r)^[k + 1] (0, 0) = (k / r % n, k % r + 1) := by
  induction k with
  | zero =>
    rw [Function.iterate_one, turn, if_neg (by omega)]
    simp
  | succ k ih => rw [Function.iterate_succ_apply', ih, turn_turn hr]

end CoreMiner.Lib.RoundRobin
