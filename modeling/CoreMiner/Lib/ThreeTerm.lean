/-
  CoreMiner.Lib.ThreeTerm — the sum of three shifted copies of a function on a product of two
  abelian groups, with values where `a + a = 0`.

  Two applications shift by twice as much (`threeTerm_threeTerm`): the mixed terms appear twice.
  So where the first shift has order five and the second one an order that is a power of two, some
  power of the map is the identity, and the map is injective (`threeTerm_injective`).
-/

import Mathlib.Algebra.Group.Basic
import Mathlib.Logic.Function.Iterate
import Mathlib.Tactic.Abel

namespace CoreMiner.Lib

variable {G H M : Type*} [AddCommGroup G] [AddCommGroup H] [AddCommGroup M]

/-- The function itself, its copy shifted by `g`, and its copy shifted by `-g` and `h`. -/
def threeTerm (g : G) (h : H) (C : G → H → M) (x : G) (z : H) : M := C x z + (C (x - g) z + C (x + g) (z - h))

variable (two : ∀ a : M, a + a = 0) {g : G} {h : H}

include two in
theorem threeTerm_threeTerm (C : G → H → M) :
    threeTerm g h (threeTerm g h C) = threeTerm (2 • g) (2 • h) C := by
  funext x z
  have left : x - g - g = x - 2 • g := by abel
  have right : x + g + g = x + 2 • g := by abel
  have down : z - h - h = z - 2 • h := by abel
  have mixed : C x z + (C (x - g) z + C (x + g) (z - h))
      + (C (x - g) z + (C (x - 2 • g) z + C x (z - h))
        + (C (x + g) (z - h) + (C x (z - h) + C (x + 2 • g) (z - 2 • h))))
      = C x z + (C (x - 2 • g) z + C (x + 2 • g) (z - 2 • h))
        + ((C (x - g) z + C (x - g) z) + (C (x + g) (z - h) + C (x + g) (z - h))
          + (C x (z - h) + C x (z - h))) := by
    abel
  simp only [threeTerm, left, right, down, sub_add_cancel, add_sub_cancel_right, mixed, two, add_zero]

include two in
/-- `2 ^ n` applications shift by `2 ^ n` times as much. -/
theorem threeTerm_iterate (n : Nat) :
    (threeTerm (M := M) g h)^[2 ^ n] = threeTerm (2 ^ n • g) (2 ^ n • h) := by
  induction n with
  | zero => simp only [pow_zero, Function.iterate_one, one_nsmul]
  | succ n ih =>
    funext C
    have twice : 2 ^ (n + 1) = 2 ^ n + 2 ^ n := by omega
    rw [pow_succ, mul_nsmul g, mul_nsmul h, ← threeTerm_threeTerm two, ← pow_succ, twice,
      Function.iterate_add_apply, ih]

include two in
/-- Of an element of order five, the map and the one of twice the shift undo each other. -/
theorem threeTerm_five (five : 5 • g = 0) (C : G → H → M) : threeTerm (2 • g) 0 (threeTerm g 0 C) = C := by
  funext x z
  have around : x - 2 • g - g = x + 2 • g := by
    calc x - 2 • g - g = x + 2 • g - 5 • g := by abel
      _ = x + 2 • g := by rw [five, sub_zero]
  have back : x + 2 • g + g = x - 2 • g := by
    calc x + 2 • g + g = x - 2 • g + 5 • g := by abel
      _ = x - 2 • g := by rw [five, add_zero]
  have one : x - 2 • g + g = x - g := by abel
  have other : x + 2 • g - g = x + g := by abel
  have paired : C x z + (C (x - g) z + C (x + g) z)
      + (C (x - 2 • g) z + (C (x + 2 • g) z + C (x - g) z) + (C (x + 2 • g) z + (C (x + g) z + C (x - 2 • g) z)))
      = C x z + ((C (x - g) z + C (x - g) z) + (C (x + g) z + C (x + g) z)
        + ((C (x - 2 • g) z + C (x - 2 • g) z) + (C (x + 2 • g) z + C (x + 2 • g) z))) := by
    abel
  simp only [threeTerm, sub_zero, around, back, one, other, paired, two, add_zero]

include two in
theorem threeTerm_injective (five : 5 • g = 0) {n : Nat} (power : 2 ^ n • h = 0) :
    Function.Injective (threeTerm (M := M) g h) := by
  have powered : (threeTerm (M := M) g h)^[2 ^ n] = threeTerm (2 ^ n • g) 0 := by
    rw [threeTerm_iterate two, power]
  have order : 5 • 2 ^ n • g = 0 := by rw [nsmul_left_comm, five, nsmul_zero]
  have injective : Function.Injective (threeTerm (M := M) (H := H) (2 ^ n • g) 0) :=
    Function.LeftInverse.injective (threeTerm_five two order)
  rw [← powered] at injective
  intro C C' heq
  apply injective
  obtain ⟨k, hk⟩ : ∃ k, 2 ^ n = k + 1 := ⟨2 ^ n - 1, (Nat.sub_add_cancel Nat.one_le_two_pow).symm⟩
  rw [hk, Function.iterate_succ_apply, Function.iterate_succ_apply, heq]

end CoreMiner.Lib
