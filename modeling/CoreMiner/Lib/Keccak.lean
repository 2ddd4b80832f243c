/-
  CoreMiner.Lib.Keccak — the permutation Keccak-p[1600, 24] on the bits of its state, and the hash
  functions of SHA-3 as sponges over it.

  The state has a bit for each column `x`, row `y` and depth `z`. The five step mappings and the
  constants of ι are those of the standard, with the shift register that the constants come from.
  Each step mapping is injective, so the permutation is one (`permute_bijective`). This takes an
  argument for θ only: on the parities of the columns it is a sum of three shifted copies.
-/

import CoreMiner.Lib.Sponge
import CoreMiner.Lib.ThreeTerm
import Mathlib.Algebra.Ring.BooleanRing
import Mathlib.Data.Fintype.Pi
import Mathlib.Data.Fintype.EquivFin
import Mathlib.Data.UInt
import Mathlib.Data.ZMod.Defs

namespace CoreMiner.Lib.Keccak

abbrev Bits := Fin 5 → Fin 5 → Fin 64 → Bool

/-! ## The step mappings -/

def parity (A : Bits) (x : Fin 5) (z : Fin 64) : Bool := A x 0 z ^^ A x 1 z ^^ A x 2 z ^^ A x 3 z ^^ A x 4 z

def theta (A : Bits) : Bits := fun x y z => A x y z ^^ (parity A (x - 1) z ^^ parity A (x + 1) (z - 1))

def track (t : Nat) : Fin 5 × Fin 5 := (fun p => (p.2, 2 * p.1 + 3 * p.2))^[t] (1, 0)

/-- How far ρ moves a lane. It leaves the lane that it does not come to in place. -/
def offset (x y : Fin 5) : Nat :=
  match (List.range 24).find? fun t => track t = (x, y) with
  | some t => (t + 1) * (t + 2) / 2
  | none => 0

def rho (A : Bits) : Bits := fun x y z => A x y (z - Fin.ofNat 64 (offset x y))

def pi (A : Bits) : Bits := fun x y z => A (x + 3 * y) x z

def chi (A : Bits) : Bits := fun x y z => A x y z ^^ ((A (x + 1) y z ^^ true) && A (x + 2) y z)

def shiftRegister (r : List Bool) : List Bool :=
  match r with
  | [a, b, c, d, e, f, g, h] => [h, a, b, c, d ^^ h, e ^^ h, f ^^ h, g]
  | _ => r

def rc (t : Nat) : Bool :=
  (shiftRegister^[t % 255] [true, false, false, false, false, false, false, false]).getD 0 false

/-- The bits of the constant of round `i`: those at `2 ^ j - 1` come from the register. -/
def constant (i : Nat) (z : Fin 64) : Bool := (List.range 7).any fun j => z.val = 2 ^ j - 1 && rc (j + 7 * i)

def iota (i : Nat) (A : Bits) : Bits := fun x y z => A x y z ^^ (x = 0 && y = 0 && constant i z)

def round (i : Nat) (A : Bits) : Bits := iota i (chi (pi (rho (theta A))))

def rounds : Nat → Bits → Bits
  | 0, A => A
  | n + 1, A => round n (rounds n A)

def permute : Bits → Bits := rounds 24

/-! ## They are injective -/

theorem xor_five : ∀ a b c d e k : Bool,
    ((a ^^ k) ^^ (b ^^ k) ^^ (c ^^ k) ^^ (d ^^ k) ^^ (e ^^ k)) = ((a ^^ b ^^ c ^^ d ^^ e) ^^ k) := by
  decide

/-- On the parities of the columns, θ is a sum of three shifted copies. -/
theorem parity_theta (A : Bits) : parity (theta A) = threeTerm 1 1 (parity A) := by
  funext x z
  exact xor_five _ _ _ _ _ _

theorem parity_theta_injective {A B : Bits} (h : theta A = theta B) : parity A = parity B := by
  have two : ∀ a : Bool, a + a = 0 := by decide
  have five : 5 • (1 : Fin 5) = 0 := by decide
  have depth : 2 ^ 6 • (1 : Fin 64) = 0 := by decide
  apply threeTerm_injective two five depth
  rw [← parity_theta, ← parity_theta, h]

theorem theta_injective : Function.Injective theta := by
  intro A B h
  have parities := parity_theta_injective h
  funext x y z
  have bit : theta A x y z = theta B x y z := by rw [h]
  simp only [theta, parities] at bit
  exact Bool.xor_left_inj.mp bit

theorem rho_injective : Function.Injective rho := by
  intro A B h
  funext x y z
  have bit : rho A x y (z + Fin.ofNat 64 (offset x y)) = rho B x y (z + Fin.ofNat 64 (offset x y)) := by rw [h]
  simpa only [rho, add_sub_cancel_right] using bit

/-- Every lane comes to some place in π. -/
theorem pi_source : ∀ x y : Fin 5, ∃ x' y' : Fin 5, x' + 3 * y' = x ∧ x' = y := by
  decide

theorem pi_injective : Function.Injective pi := by
  intro A B h
  funext x y z
  obtain ⟨x', y', rfl, rfl⟩ := pi_source x y
  exact congrFun (congrFun (congrFun h x') y') z

def chiRow (r : Fin 5 → Bool) (x : Fin 5) : Bool := r x ^^ ((r (x + 1) ^^ true) && r (x + 2))

theorem chiRow_injective : Function.Injective chiRow := by
  decide

theorem chi_injective : Function.Injective chi := by
  intro A B h
  funext x y z
  have row : chiRow (fun x => A x y z) = chiRow fun x => B x y z := by
    funext x
    exact congrFun (congrFun (congrFun h x) y) z
  exact congrFun (chiRow_injective row) x

theorem iota_injective (i : Nat) : Function.Injective (iota i) := by
  intro A B h
  funext x y z
  exact Bool.xor_left_inj.mp (congrFun (congrFun (congrFun h x) y) z)

theorem round_injective (i : Nat) : Function.Injective (round i) :=
  (iota_injective i).comp (chi_injective.comp (pi_injective.comp (rho_injective.comp theta_injective)))

theorem rounds_injective (n : Nat) : Function.Injective (rounds n) := by
  induction n with
  | zero => exact Function.injective_id
  | succ n ih => exact (round_injective n).comp ih

theorem permute_bijective : Function.Bijective permute :=
  Finite.injective_iff_bijective.mp (rounds_injective 24)

/-! ## The hash functions -/

def add (block : List Bool) (A : Bits) : Bits := fun x y z => A x y z ^^ block.getD (64 * (5 * y + x) + z) false

def string (A : Bits) : List Bool :=
  (List.range 1600).map fun i => A (Fin.ofNat 5 (i / 64)) (Fin.ofNat 5 (i / 320)) (Fin.ofNat 64 i)

/-- The padding pad10*1 of a string of `n` bits to a multiple of `r`. -/
def pad (r n : Nat) : List Bool := true :: List.replicate ((r - (n + 2) % r) % r) false ++ [true]

def sponge (r d : Nat) (N : List Bool) : List Bool :=
  let P := N ++ pad r N.length
  (Sponge.squeeze permute string r (d / r)
    (Sponge.absorb permute add r (P.length / r) (fun _ _ _ => false) P)).take d

def sha3 (d : Nat) (M : List Bool) : List Bool := sponge (1600 - 2 * d) d (M ++ [false, true])

def shake (s d : Nat) (M : List Bool) : List Bool := sponge (1600 - 2 * s) d (M ++ [true, true, true, true])

def byteBits (b : UInt8) : List Bool := (List.range 8).map fun i => b.toBitVec.getLsbD i

end CoreMiner.Lib.Keccak
