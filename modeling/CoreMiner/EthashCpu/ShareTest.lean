/-
  CoreMiner.EthashCpu.ShareTest — one rule for the target (`CPUMiner.cpp`: `is_less_or_equal`;
  `endian.hpp`: `be`; `Farm.cpp`: `submitProofAsync`; `SimulateClient.cpp`: `submitSolution`).

  The search compares words it swaps, the farm and the simulation compare hashes with the
  operators of their type. All of them compare the numbers (`one_target_rule`).
-/

import CoreMiner.DevCore.Arith
import CoreMiner.EthashCpu.Search

namespace CoreMiner.EthashCpu

open DevCore EthCore Lib

/-! ## The search on a little-endian host -/

def bswap64 (x : UInt64) : UInt64 := UInt64.ofNat (Digits.value 256 ((littleEndian x).map UInt8.toNat))

/-- The loop of `is_less_or_equal` over the words from `i` on, `k` of which are left, by the
    instructions of the host. -/
def hostLessOrEqualFrom (a b : H256) (i : Nat) : Nat → Bool
  | 0 => true
  | k + 1 =>
    if bswap64 (hostWord a.data i) > bswap64 (hostWord b.data i) then false
    else if bswap64 (hostWord a.data i) < bswap64 (hostWord b.data i) then true
    else hostLessOrEqualFrom a b (i + 1) k

def hostLessOrEqual (a b : H256) : Bool := hostLessOrEqualFrom a b 0 4

/-- The bytes of a loaded word are those of the memory. -/
theorem littleEndian_hostWord {h : H256} {i : Nat} (hi : i < 4) :
    (littleEndian (hostWord h.data i)).map UInt8.toNat = ((h.data.drop (8 * i)).take 8).map UInt8.toNat := by
  have hlength : (((h.data.drop (8 * i)).take 8).map UInt8.toNat).length = 8 := by
    simp only [List.length_map, List.length_take, List.length_drop, h.size]
    omega
  have hdigits := Digits.map_div_value_reverse (bytes_lt ((h.data.drop (8 * i)).take 8))
  rw [hlength] at hdigits
  rw [littleEndian, List.map_map, hostWord_toNat, List.map_reverse]
  refine Eq.trans (List.map_congr_left fun k _ => ?_) hdigits
  exact UInt8.toNat_ofNat'

/-- A swapped word is the number its bytes denote in the order of the memory. -/
theorem bswap64_hostWord {h : H256} {i : Nat} (hi : i < 4) : (bswap64 (hostWord h.data i)).toNat = word64 h i := by
  rw [bswap64, littleEndian_hostWord hi]
  exact Nat.mod_eq_of_lt (word64_lt h i)

theorem hostLessOrEqualFrom_eq (a b : H256) {i k : Nat} (h : i + k ≤ 4) :
    hostLessOrEqualFrom a b i k = isLessOrEqualFrom a b i k := by
  induction k generalizing i with
  | zero => rfl
  | succ k ih =>
    have hi : i < 4 := by omega
    rw [hostLessOrEqualFrom, isLessOrEqualFrom, ih (by omega)]
    simp only [gt_iff_lt, UInt64.lt_iff_toNat_lt, bswap64_hostWord hi]

theorem hostLessOrEqual_eq (a b : H256) : hostLessOrEqual a b = isLessOrEqual a b :=
  hostLessOrEqualFrom_eq a b (by decide)

/-! ## The farm and the simulation -/

/-- `Farm::submitProofAsync` counts a proof of this value as failed. -/
def proofFails (value boundary : H256) : Bool := value.greater boundary

/-- `SimulateClient::submitSolution` accepts a solution of this value. -/
def simulateAccepts (value boundary : H256) : Bool := value.lessOrEqual boundary

/-- The word-wise test, the operators of the hash and the numbers agree; so what the search submits
    is what the simulation accepts and the farm does not fail. -/
theorem one_target_rule (a b : H256) (hash : Hash) (w : WorkPackage) (index : Nat) (n : UInt64) :
    hostLessOrEqual a b = decide (a.toArith ≤ b.toArith) ∧ a.lessOrEqual b = decide (a.toArith ≤ b.toArith) ∧
    (!a.greater b) = decide (a.toArith ≤ b.toArith) ∧
    tryNonce hash w index n =
      (if hostLessOrEqual (finalHash hash w.header n) w.boundary then [solution hash w index n] else []) ∧
    proofFails a b = !hostLessOrEqual a b ∧ simulateAccepts a b = hostLessOrEqual a b := by
  have hhost : hostLessOrEqual a b = decide (a.toArith ≤ b.toArith) := by
    rw [Bool.eq_iff_iff, hostLessOrEqual_eq, isLessOrEqual_iff, decide_eq_true_iff, BitVec.le_def, a.toArith_toNat,
      b.toArith_toNat]
  have hhash : a.lessOrEqual b = decide (a.toArith ≤ b.toArith) := by
    rw [← hhost, Bool.eq_iff_iff, FixedHash.lessOrEqual_iff, hostLessOrEqual_eq, isLessOrEqual_iff]
  refine ⟨hhost, hhash, by rw [FixedHash.greater, Bool.not_not, hhash], ?_, ?_, hhash.trans hhost.symm⟩
  · rw [tryNonce, hostLessOrEqual_eq]
  · rw [proofFails, FixedHash.greater, hhash, hhost]

end CoreMiner.EthashCpu
