/-
  CoreMiner.Api.Scaling — which suffix a scaled number gets (`CommonData.cpp`: `getScaledSize`,
  `getFormattedHashes`, `getFormattedMemory`; `Miner.h`: `TelemetryType::str`; `PoolManager.cpp`:
  `showMiningAt` with its line).

  The loop divides while the value is above the divisor and the index is at most the last one of
  the table, and then increments the index: a turn at the last index leaves the table. So the
  index stays inside exactly if the value is at most the divisor to the power of the table's size
  (`inside_iff`): 1000 Gh for hash rates and difficulties, 1024 GB for memory. Beyond, the suffix
  read is one behind the array (`getScaledSize_isOk_iff`, `str_isOk_iff`, `miningAt_isOk_iff`).
-/

import CoreMiner.Api.Stats
import CoreMiner.Pools.Difficulty
import Mathlib.Algebra.Order.Field.Rat
import Mathlib.Logic.Relation

namespace CoreMiner.EthCore

def SolutionAccount.str (x : SolutionAccount) : String :=
  "A" ++ toString x.accepted ++ (if x.wasted = 0 then "" else ":W" ++ toString x.wasted) ++
    (if x.rejected = 0 then "" else ":R" ++ toString x.rejected) ++
    (if x.failed = 0 then "" else ":F" ++ toString x.failed)

end CoreMiner.EthCore

namespace CoreMiner.Api

open DevCore EthCore Lib Relation
open Pools (Manager)

/-! ## The loop -/

section

variable (divisor : Rat) (numsizes : Nat)

/-- A turn of the loop of `getScaledSize`, for a table of `numsizes` suffixes, of which there is
    one: it changes the value and the index. -/
inductive Turn : Rat × Nat → Rat × Nat → Prop
  | turn {newvalue : Rat} {i : Nat} : divisor < newvalue → i ≤ numsizes - 1 →
    Turn (newvalue, i) (newvalue / divisor, i + 1)

structure Halts (x y : Rat × Nat) : Prop where
  run : ReflTransGen (Turn divisor numsizes) x y
  stops : ∀ z, ¬ Turn divisor numsizes y z

def Inside (value : Rat) : Prop :=
  ∃ newvalue i, Halts divisor numsizes (value, 0) (newvalue, i) ∧ i < numsizes

end

section

variable {divisor : Rat} {numsizes : Nat}

theorem turn_rightUnique : Relator.RightUnique (Turn divisor numsizes) := by
  rintro _ _ _ ⟨_, _⟩ ⟨_, _⟩
  rfl

theorem Halts.unique {x y z : Rat × Nat} (hy : Halts divisor numsizes x y) (hz : Halts divisor numsizes x z) :
    y = z := by
  rcases ReflTransGen.total_of_right_unique turn_rightUnique hy.run hz.run with h | h
  · exact ((reflTransGen_iff_eq hy.stops).mp h).symm
  · exact (reflTransGen_iff_eq hz.stops).mp h

/-- With the turns that are left, `scale` takes the loop to its end. -/
theorem scale_halts (hsizes : 0 < numsizes) {turns i : Nat} (h : i + turns = numsizes) (value : Rat) :
    Halts divisor numsizes (value, i) (scale divisor turns value i) := by
  induction turns generalizing value i with
  | zero =>
    refine ⟨.refl, ?_⟩
    rintro _ ⟨-, hi⟩
    omega
  | succ turns ih =>
    rw [scale]
    split
    · rename_i hlt
      obtain ⟨hrun, hstops⟩ := ih (i := i + 1) (by omega) (value / divisor)
      exact ⟨.head (.turn hlt (by omega)) hrun, hstops⟩
    · rename_i hge
      refine ⟨.refl, ?_⟩
      rintro _ ⟨hlt, -⟩
      exact hge hlt

/-- All turns are made exactly for the values above the power. -/
theorem scale_exhausts_iff (hdivisor : 1 < divisor) (turns : Nat) (value : Rat) (i : Nat) :
    (scale divisor (turns + 1) value i).2 < i + (turns + 1) ↔ value ≤ divisor ^ (turns + 1) := by
  induction turns generalizing value i with
  | zero =>
    rw [scale, scale, zero_add, pow_one]
    split
    · rename_i hlt
      simp [hlt]
    · rename_i hge
      simp [not_lt.mp hge]
  | succ turns ih =>
    rw [scale]
    split
    · rw [show i + (turns + 1 + 1) = i + 1 + (turns + 1) by omega, ih, pow_succ _ (turns + 1)]
      exact div_le_iff₀ (by linarith)
    · rename_i hge
      have hpower : divisor ≤ divisor ^ (turns + 1 + 1) := le_self_pow₀ hdivisor.le (by omega)
      have hle := not_lt.mp hge
      simp only [(hle.trans hpower), iff_true]
      omega

theorem inside_iff_scale (hsizes : 0 < numsizes) (value : Rat) :
    Inside divisor numsizes value ↔ (scale divisor numsizes value 0).2 < numsizes := by
  have hhalts : Halts divisor numsizes (value, 0) (scale divisor numsizes value 0) :=
    scale_halts hsizes (Nat.zero_add numsizes) value
  constructor
  · rintro ⟨newvalue, i, h, hi⟩
    rwa [← h.unique hhalts]
  · intro hi
    exact ⟨_, _, hhalts, hi⟩

/-- The index stays inside the table exactly for the values that are at most the power. -/
theorem inside_iff (hdivisor : 1 < divisor) (hsizes : 0 < numsizes) (value : Rat) :
    Inside divisor numsizes value ↔ value ≤ divisor ^ numsizes := by
  obtain ⟨turns, rfl⟩ := Nat.exists_eq_succ_of_ne_zero hsizes.ne'
  have hexhausts := scale_exhausts_iff hdivisor turns value 0
  rw [Nat.zero_add] at hexhausts
  exact (inside_iff_scale hsizes value).trans hexhausts

end

/-! ## The functions -/

variable (E : Env)

def hashSuffixes : List String := ["h", "Kh", "Mh", "Gh"]

/-- What `TelemetryAccountType` holds for `str` only: `prefix` and `paused`. -/
structure Label where
  device : String := ""
  paused : Bool := false

def ethReset : String := "\x1b[0m"
def ethRed : String := "\x1b[91m"
def ethWhite : String := "\x1b[97m"
def ethGreen : String := "\x1b[32m"
def ethTeal : String := "\x1b[36m"
def ethWhiteBold : String := "\x1b[1;97m"
def ethTealBold : String := "\x1b[1;36m"

/-- A miner in the line of `TelemetryType::str`, on the scale of the farm. -/
def minerText (magnitude : Nat) (label : Nat → Label) (x : TelemetryAccount × Nat) : String :=
  let hr := if 0 < x.1.hashrate then x.1.hashrate / 1000 ^ magnitude else x.1.hashrate
  (if (label x.2).paused then ethRed else "") ++ (label x.2).device ++ toString x.2 ++ " " ++ ethTeal ++
    E.fixed 2 hr ++ ethReset

/-- `TelemetryType::str`; `magnitude <= 3` admits as many turns as there are suffixes. -/
def str (t : TelemetryType) (label : Nat → Label) (now : Nat) : Except Stop String :=
  let (hr, magnitude) := scale 1000 4 t.farm.hashrate 0
  match hashSuffixes[magnitude]? with
  | some suffix => .ok (ethGreen ++ runningTime ((now - t.start) / second) ++ ethReset ++ ethWhiteBold ++ " " ++
      t.farm.solutions.str ++ ethReset ++ " " ++ ethTealBold ++ E.fixed 2 hr ++ " " ++ suffix ++ ethReset ++ " - " ++
      ", ".intercalate (t.miners.zipIdx.map (minerText E magnitude label)))
  | none => .error .undefined

/-- `PoolManager::showMiningAt`: the line it logs, unless there is no work. -/
def miningAt (m : Manager) : Except Stop (Option String) :=
  if m.currentWp.header = .zero 32 then .ok none else do
    let d ← E.std (getHashesToTarget m.currentWp.boundary)
    let difficulty ← getFormattedHashes E d
    return some ("Epoch : " ++ ethWhite ++ toString m.currentWp.epoch ++ ethReset ++ " Difficulty : " ++ ethWhite ++
      difficulty ++ ethReset)

/-! ## Which numbers they take -/

theorem getScaledSize_isOk_iff (value : Rat) {divisor : Rat} (hdivisor : 1 < divisor) (precision : Nat)
    {sizes : List String} (hsizes : 0 < sizes.length) :
    (getScaledSize E value divisor precision sizes).isOk = true ↔ value ≤ divisor ^ sizes.length := by
  rw [← inside_iff hdivisor hsizes, inside_iff_scale hsizes, getScaledSize]
  obtain ⟨newvalue, i⟩ := scale divisor sizes.length value 0
  by_cases hi : i < sizes.length
  · simp [hi, Except.isOk, Except.toBool]
  · simp [hi, Except.isOk, Except.toBool]

theorem getFormattedHashes_isOk_iff (hr : Rat) : (getFormattedHashes E hr).isOk = true ↔ hr ≤ 1000 ^ 4 :=
  getScaledSize_isOk_iff E hr (by norm_num) 2 (by decide)

theorem getFormattedMemory_isOk_iff (mem : Rat) : (getFormattedMemory E mem).isOk = true ↔ mem ≤ 1024 ^ 4 :=
  getScaledSize_isOk_iff E mem (by norm_num) 2 (by decide)

theorem str_isOk_iff (t : TelemetryType) (label : Nat → Label) (now : Nat) :
    (str E t label now).isOk = true ↔ t.farm.hashrate ≤ 1000 ^ 4 := by
  rw [← inside_iff (by norm_num) (by decide : 0 < 4), inside_iff_scale (by decide), str]
  obtain ⟨hr, magnitude⟩ := scale 1000 4 t.farm.hashrate 0
  by_cases hi : magnitude < hashSuffixes.length
  · have hi' : magnitude < 4 := hi
    simp [hi, hi', Except.isOk, Except.toBool]
  · have hi' : ¬ magnitude < 4 := hi
    simp [hi, hi', Except.isOk, Except.toBool]

theorem getHashesToTarget_eq (target : H256) : getHashesToTarget target =
    if target.value = 0 then .error .runtimeError else .ok ((0xffff * 2 ^ 240 / target.value : Nat) : Rat) := rfl

/-- The difficulty of a target is one of these exactly if the target is not too small. -/
theorem getHashesToTarget_le_iff {target : H256} {d : Rat} (h : getHashesToTarget target = .ok d) :
    d ≤ 1000 ^ 4 ↔ 0xffff * 2 ^ 240 < (1000 ^ 4 + 1) * target.value := by
  rw [getHashesToTarget_eq] at h
  split at h
  · cases h
  · rename_i hzero
    cases h
    rw [show (1000 ^ 4 : Rat) = ((1000 ^ 4 : Nat) : Rat) by norm_num, Nat.cast_le, ← Nat.lt_succ_iff,
      Nat.div_lt_iff_lt_mul (Nat.pos_of_ne_zero hzero)]

/-- The line is logged exactly if the boundary is not too small. -/
theorem miningAt_isOk_iff {m : Manager} (h : m.currentWp.header ≠ .zero 32) :
    (miningAt E m).isOk = true ↔ 0xffff * 2 ^ 240 < (1000 ^ 4 + 1) * m.currentWp.boundary.value := by
  rw [miningAt, if_neg h]
  cases hd : getHashesToTarget m.currentWp.boundary with
  | error e =>
    have hzero : m.currentWp.boundary.value = 0 := by
      rw [getHashesToTarget_eq] at hd
      split at hd
      · assumption
      · cases hd
    rw [hzero, Nat.mul_zero]
    simp [Env.std, Except.mapError, Except.isOk, Except.toBool, bind, Except.bind]
  | ok d =>
    rw [← getHashesToTarget_le_iff hd, ← getFormattedHashes_isOk_iff E]
    change (Except.bind (getFormattedHashes E d) _).isOk = true ↔ _
    cases getFormattedHashes E d with
    | error e => rfl
    | ok difficulty => rfl

/-- The index of the loop stays inside the table exactly for the values that are at most the
    divisor to the power of the table's size: for the loop of `getScaledSize`, for that of
    `TelemetryType::str`, for the difficulty of every target and for every size of a memory. -/
theorem scaled_inside_iff (value divisor : Rat) (hdivisor : 1 < divisor) (numsizes : Nat) (hsizes : 1 ≤ numsizes)
    (hashrate : Rat) (target : H256) (memory : UInt64) :
    (Inside divisor numsizes value ↔ value ≤ divisor ^ numsizes) ∧
      (Inside 1000 4 hashrate ↔ hashrate ≤ 1000 ^ 4) ∧
      (∀ d, getHashesToTarget target = .ok d →
        (Inside 1000 4 d ↔ 0xffff * 2 ^ 240 < (1000 ^ 4 + 1) * target.value)) ∧
      (Inside 1024 4 memory.toNat ↔ memory.toNat ≤ 1024 ^ 4) := by
  refine ⟨inside_iff hdivisor hsizes value, inside_iff (by norm_num) (by decide) hashrate, fun d hd => ?_, ?_⟩
  · rw [← getHashesToTarget_le_iff hd]
    exact inside_iff (by norm_num) (by decide) d
  · rw [inside_iff (by norm_num) (by decide), show (1024 ^ 4 : Rat) = ((1024 ^ 4 : Nat) : Rat) by norm_num, Nat.cast_le]

/-- Sixteen gigabytes, and 2000 hashes per second. -/
theorem scaled_inside_usual : Inside 1024 4 (16 * 1024 ^ 3) ∧ Inside 1000 4 2000 := by
  obtain ⟨hvalue, hrate, -⟩ := scaled_inside_iff (16 * 1024 ^ 3) 1024 (by norm_num) 4 (by decide) 2000 (.zero 32) 0
  exact ⟨hvalue.mpr (by norm_num), hrate.mpr (by norm_num)⟩

def targetOne : H256 := ⟨List.replicate 31 0 ++ [1], rfl⟩

/-- The memory of a host with two terabytes, and the difficulty of the target one. -/
theorem terabytes_outside : ¬ Inside 1024 4 (2 * 1024 ^ 4) ∧
    getHashesToTarget targetOne = .ok (0xffff * 2 ^ 240) ∧ ¬ Inside 1000 4 (0xffff * 2 ^ 240) := by
  rw [inside_iff (by norm_num) (by decide), inside_iff (by norm_num) (by decide)]
  refine ⟨by norm_num, ?_, by norm_num⟩
  have hvalue : targetOne.value = 1 := by decide
  rw [getHashesToTarget_eq, hvalue, if_neg (by decide), Nat.div_one]
  norm_num

end CoreMiner.Api
