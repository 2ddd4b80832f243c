/-
  CoreMiner.DevCore.BigEndian — `FixedHash` is its arithmetic type in big-endian bytes
  (`CommonData.h`: `toBigEndian`; `FixedHash.h`: the constructor from `Arith`, `operator++`).

  Both loops run from the last byte to the first and write in place. So each is stated for the
  bytes in front of its index and any bytes behind it, which it is done with (`fill_value`,
  `incrementFrom_value`): `toBigEndian` leaves the low digits of the value in front, whatever the
  memory held, and the loop of `operator++` adds one to what is in front and drops the carry
  that leaves the first byte.

  With the conversion and the order of `Arith` this is one representation (`represents_arith`).
-/

import CoreMiner.DevCore.Arith

namespace CoreMiner.DevCore

open Lib

/-! ## The loops -/

def fillBigEndian {w : Nat} : Nat → BitVec w → List UInt8 → List UInt8
  | 0, _, out => out
  | i + 1, val, out =>
    let v := val &&& 0xff
    fillBigEndian i (val >>> 8) (out.set i (UInt8.ofNat v.toNat))

def toBigEndian {w : Nat} (val : BitVec w) (out : List UInt8) : List UInt8 := fillBigEndian out.length val out

/-- The loop of `operator++`: its condition increments the byte in front of `i`, and a byte that
    becomes zero carries. -/
def incrementFrom : Nat → List UInt8 → List UInt8
  | 0, data => data
  | i + 1, data =>
    let byte := data.getD i 0 + 1
    if byte = 0 then incrementFrom i (data.set i byte) else data.set i byte

theorem fillBigEndian_length {w : Nat} (i : Nat) (val : BitVec w) (out : List UInt8) :
    (fillBigEndian i val out).length = out.length := by
  induction i generalizing val out with
  | zero => rfl
  | succ i ih => rw [fillBigEndian, ih, List.length_set]

theorem incrementFrom_length (i : Nat) (data : List UInt8) : (incrementFrom i data).length = data.length := by
  induction i generalizing data with
  | zero => rfl
  | succ i ih =>
    rw [incrementFrom]
    split
    · rw [ih, List.length_set]
    · rw [List.length_set]

namespace FixedHash

variable {N : Nat}

/-- `FixedHash(Arith)`; the constructor does not initialise the bytes, so they are those of
    `memory` before. -/
def ofArith (memory : FixedHash N) (arith : BitVec (8 * N)) : FixedHash N :=
  ⟨toBigEndian arith memory.data, (fillBigEndian_length _ _ _).trans memory.size⟩

def increment (h : FixedHash N) : FixedHash N :=
  ⟨incrementFrom N h.data, (incrementFrom_length _ _).trans h.size⟩

end FixedHash

/-! ## What a loop leaves in front of its index -/

def bytesValue (l : List UInt8) : Nat := Digits.value 256 (l.map UInt8.toNat)

theorem bytesValue_cons (b : UInt8) (l : List UInt8) :
    bytesValue (b :: l) = b.toNat * 256 ^ l.length + bytesValue l := by
  rw [bytesValue, List.map_cons, Digits.value_cons, List.length_map]
  rfl

theorem bytesValue_append (front back : List UInt8) :
    bytesValue (front ++ back) = bytesValue front * 256 ^ back.length + bytesValue back := by
  rw [bytesValue, List.map_append, Digits.value_append, List.length_map]
  rfl

theorem bytesValue_snoc (front : List UInt8) (b : UInt8) :
    bytesValue (front ++ [b]) = bytesValue front * 256 + b.toNat := by
  rw [bytesValue_append, bytesValue_cons]
  simp [bytesValue]

theorem bytesValue_lt (l : List UInt8) : bytesValue l < 256 ^ l.length := by
  have h := Digits.value_lt (bytes_lt l)
  rwa [List.length_map] at h

theorem set_between (front back : List UInt8) (x b : UInt8) :
    (front ++ x :: back).set front.length b = front ++ b :: back := by
  simp

theorem lowByte_toNat {w : Nat} (val : BitVec w) (h : 8 ≤ w) :
    (UInt8.ofNat (val &&& 0xff).toNat).toNat = val.toNat % 256 := by
  have hpow : 2 ^ 8 ≤ 2 ^ w := Nat.pow_le_pow_right (by decide) h
  have hmask : (BitVec.ofNat w 255).toNat = 2 ^ 8 - 1 := by
    rw [BitVec.toNat_ofNat, Nat.mod_eq_of_lt (by omega)]
    rfl
  rw [BitVec.toNat_and, BitVec.ofNat_eq_ofNat, hmask, Nat.and_two_pow_sub_one_eq_mod]
  simp

theorem fill_value {w : Nat} (h : 8 ≤ w) (front back : List UInt8) (val : BitVec w) :
    bytesValue (fillBigEndian front.length val (front ++ back)) =
      val.toNat % 256 ^ front.length * 256 ^ back.length + bytesValue back := by
  -- The turn at the last byte of the front moves that byte behind the index.
  induction front using List.reverseRecOn generalizing back val with
  | nil => simp [fillBigEndian, Nat.mod_one]
  | append_singleton front x ih =>
    have hlow := lowByte_toNat val h
    have hhigh : (val >>> 8).toNat = val.toNat / 256 := by
      rw [BitVec.toNat_ushiftRight, Nat.shiftRight_eq_div_pow]
    have hsplit : val.toNat % 256 ^ (front.length + 1) =
        val.toNat / 256 % 256 ^ front.length * 256 + val.toNat % 256 := by
      rw [Nat.pow_succ', Nat.mod_mul]
      ring
    rw [List.length_append, List.length_singleton, List.append_assoc, List.singleton_append, fillBigEndian,
      set_between, ih, bytesValue_cons, hlow, hhigh, hsplit, List.length_cons]
    ring

theorem incrementFrom_value (front back : List UInt8) :
    bytesValue (incrementFrom front.length (front ++ back)) =
      (bytesValue front + 1) % 256 ^ front.length * 256 ^ back.length + bytesValue back := by
  induction front using List.reverseRecOn generalizing back with
  | nil => simp [incrementFrom, Nat.mod_one]
  | append_singleton front x ih =>
    have hread : (front ++ x :: back).getD front.length 0 = x := by simp
    rw [List.length_append, List.length_singleton, List.append_assoc, List.singleton_append, incrementFrom,
      hread, set_between, bytesValue_snoc]
    have hnext : (x + 1).toNat = (x.toNat + 1) % 256 := UInt8.toNat_add x 1
    have hx := x.toNat_lt
    by_cases hcarry : x + 1 = 0
    · have hlast : x.toNat = 255 := by
        rw [hcarry, UInt8.toNat_zero] at hnext
        omega
      have hsplit : (bytesValue front * 256 + x.toNat + 1) % 256 ^ (front.length + 1) =
          (bytesValue front + 1) % 256 ^ front.length * 256 := by
        rw [hlast, Nat.pow_succ, ← Nat.mul_mod_mul_right, Nat.succ_mul]
      rw [if_pos hcarry, ih, hsplit, bytesValue_cons, hcarry, UInt8.toNat_zero, List.length_cons]
      ring
    · have hstays : (x + 1).toNat = x.toNat + 1 := by
        have hne : (x + 1).toNat ≠ 0 := fun hzero => hcarry (UInt8.toNat_inj.mp hzero)
        omega
      have hfits : bytesValue front * 256 + x.toNat + 1 < 256 ^ (front.length + 1) := by
        have hfront := bytesValue_lt front
        rw [Nat.pow_succ]
        omega
      rw [if_neg hcarry, Nat.mod_eq_of_lt hfits, bytesValue_append, bytesValue_cons, hstays, List.length_cons]
      ring

/-! ## The representation -/

namespace FixedHash

variable {N : Nat}

theorem ofArith_value (memory : FixedHash N) (arith : BitVec (8 * N)) : (ofArith memory arith).value = arith.toNat := by
  cases N with
  | zero =>
    have hdata : (ofArith memory arith).data = [] := List.length_eq_zero_iff.mp (ofArith memory arith).size
    have harith := arith.isLt
    rw [value, hdata]
    simp at harith ⊢
    omega
  | succ n =>
    have hfill := fill_value (by omega) memory.data [] arith
    have harith : arith.toNat < 256 ^ memory.data.length := by
      rw [memory.size, show 256 = 2 ^ 8 from rfl, ← Nat.pow_mul]
      exact arith.isLt
    rw [List.append_nil, Nat.mod_eq_of_lt harith, List.length_nil, Nat.pow_zero, Nat.mul_one] at hfill
    exact hfill

theorem increment_value (h : FixedHash N) : h.increment.value = (h.value + 1) % 256 ^ N := by
  have hloop := incrementFrom_value h.data []
  rw [List.append_nil, h.size, List.length_nil, Nat.pow_zero, Nat.mul_one] at hloop
  exact hloop

/-- A `FixedHash` is its arithmetic value in big-endian bytes: the conversions are inverse to each
    other, the order of the bytes is that of the values, and the increment adds one, modulo
    `2^(8N)`. -/
theorem represents_arith (N : Nat) (h k memory : FixedHash N) (arith : BitVec (8 * N)) :
    ofArith memory h.toArith = h ∧ (ofArith memory arith).toArith = arith ∧
      (h.less k = true ↔ h.toArith.toNat < k.toArith.toNat) ∧
      h.increment.toArith.toNat = (h.toArith.toNat + 1) % 2 ^ (8 * N) := by
  refine ⟨?_, ?_, ?_, ?_⟩
  · apply value_inj
    rw [ofArith_value, toArith_toNat]
  · apply BitVec.eq_of_toNat_eq
    rw [toArith_toNat, ofArith_value]
  · rw [toArith_toNat, toArith_toNat]
    exact less_iff h k
  · rw [toArith_toNat, toArith_toNat, increment_value, Nat.pow_mul]

end FixedHash

/-- The carry runs through the last two bytes, and out of the first one. -/
example : (FixedHash.increment (N := 3) ⟨[7, 255, 255], rfl⟩).data = [8, 0, 0] ∧
    (FixedHash.increment (N := 2) ⟨[255, 255], rfl⟩).data = [0, 0] := by decide

end CoreMiner.DevCore
