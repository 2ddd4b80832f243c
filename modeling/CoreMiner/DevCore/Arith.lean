/-
  CoreMiner.DevCore.Arith — `FixedHash` as a number (`FixedHash.h`: the comparison operators, the
  conversion to `Arith`; `CommonData.h`: `fromBigEndian`).

  `Arith` has as many bits as the hash, so that the conversion loses nothing (`toArith_toNat`).
  The loop of `operator<` compares bytes, the first one that differs decides, and so it compares
  the numbers (`less_iff`). For 32 bytes `operator==` compares four words as the host loads them;
  whatever the order of the bytes in a word, words are equal if their bytes are (`equalWords_iff`),
  and `operator<=` and `operator>` are the comparison of the numbers too (`lessOrEqual_iff`).
-/

import CoreMiner.DevCore.Hex
import Mathlib.Data.List.Induction

namespace CoreMiner.DevCore

open Lib

/-! ## The conversion -/

def fromBigEndian (w : Nat) (bytes : List UInt8) : BitVec w :=
  bytes.foldl (fun ret b => (ret <<< 8) ||| b.toBitVec.setWidth w) 0

def FixedHash.toArith {N : Nat} (h : FixedHash N) : BitVec (8 * N) := fromBigEndian (8 * N) h.data

theorem bytes_lt (l : List UInt8) : ∀ d ∈ l.map UInt8.toNat, d < 256 := by
  intro d hd
  obtain ⟨b, -, rfl⟩ := List.mem_map.mp hd
  exact b.toNat_lt

theorem bytes_inj {a b : List UInt8} (h : a.map UInt8.toNat = b.map UInt8.toNat) : a = b :=
  (List.map_inj_right fun _ _ => UInt8.toNat_inj.mp).mp h

theorem shift_or_toNat {w : Nat} (ret : BitVec w) (b : UInt8) (h : ret.toNat * 256 + b.toNat < 2 ^ w) :
    ((ret <<< 8) ||| b.toBitVec.setWidth w).toNat = ret.toNat * 256 + b.toNat := by
  have hb : b.toNat < 2 ^ 8 := b.toNat_lt
  have hshift : ret.toNat <<< 8 = ret.toNat * 256 := Nat.shiftLeft_eq _ _
  have hhigh : ret.toNat <<< 8 % 2 ^ w = ret.toNat <<< 8 := Nat.mod_eq_of_lt (by omega)
  have hlow : b.toNat % 2 ^ w = b.toNat := Nat.mod_eq_of_lt (by omega)
  rw [BitVec.toNat_or, BitVec.toNat_shiftLeft, BitVec.toNat_setWidth, UInt8.toNat_toBitVec, hhigh, hlow,
    ← Nat.shiftLeft_add_eq_or_of_lt hb, hshift]

theorem fromBigEndian_toNat {w : Nat} {bytes : List UInt8} (h : 8 * bytes.length ≤ w) :
    (fromBigEndian w bytes).toNat = Digits.value 256 (bytes.map UInt8.toNat) := by
  -- The bytes so far leave room for those to come.
  induction bytes using List.reverseRecOn with
  | nil => simp [fromBigEndian]
  | append_singleton bytes b ih =>
    rw [List.length_append, List.length_singleton] at h
    have hvalue : Digits.value 256 ((bytes ++ [b]).map UInt8.toNat) =
        Digits.value 256 (bytes.map UInt8.toNat) * 256 + b.toNat := by
      rw [List.map_append, Digits.value_append]
      simp [Digits.value]
    have hlt : Digits.value 256 ((bytes ++ [b]).map UInt8.toNat) < 2 ^ w := by
      calc _ < 256 ^ ((bytes ++ [b]).map UInt8.toNat).length := Digits.value_lt (bytes_lt _)
        _ = 2 ^ (8 * (bytes.length + 1)) := by rw [List.length_map, List.length_append, Nat.pow_mul]; rfl
        _ ≤ 2 ^ w := Nat.pow_le_pow_right (by decide) h
    rw [hvalue, ← ih (by omega)] at hlt ⊢
    rw [← shift_or_toNat _ _ hlt, fromBigEndian, List.foldl_append]
    rfl

theorem FixedHash.toArith_toNat {N : Nat} (h : FixedHash N) : h.toArith.toNat = h.value :=
  fromBigEndian_toNat (Nat.le_of_eq (by rw [h.size]))

/-! ## The comparison by bytes -/

def lessBytes : List UInt8 → List UInt8 → Bool
  | x :: a, y :: b => if x < y then true else if y < x then false else lessBytes a b
  | _, _ => false

def FixedHash.less {N : Nat} (a b : FixedHash N) : Bool := lessBytes a.data b.data

theorem lessBytes_iff {a b : List UInt8} (h : a.length = b.length) :
    lessBytes a b = true ↔ Digits.value 256 (a.map UInt8.toNat) < Digits.value 256 (b.map UInt8.toNat) := by
  induction a generalizing b with
  | nil =>
    cases b with
    | nil => simp [lessBytes]
    | cons y b => simp at h
  | cons x a ih =>
    cases b with
    | nil => simp at h
    | cons y b =>
      have hlen : a.length = b.length := by simpa using h
      rw [List.map_cons, List.map_cons, Digits.value_cons_lt_iff (bytes_lt a) (bytes_lt b) (by simpa using hlen),
        ← ih hlen, lessBytes]
      by_cases hxy : x < y
      · simp [hxy, UInt8.lt_iff_toNat_lt.mp hxy]
      · by_cases hyx : y < x
        · have hyx' := UInt8.lt_iff_toNat_lt.mp hyx
          rw [if_neg hxy, if_pos hyx]
          simp only [Bool.false_eq_true, false_iff]
          omega
        · have heq : x = y := UInt8.le_antisymm (UInt8.not_lt.mp hyx) (UInt8.not_lt.mp hxy)
          simp [heq]

theorem FixedHash.less_iff {N : Nat} (a b : FixedHash N) : a.less b = true ↔ a.value < b.value :=
  lessBytes_iff (a.size.trans b.size.symm)

theorem FixedHash.value_inj {N : Nat} {a b : FixedHash N} (h : a.value = b.value) : a = b := by
  have hdata : a.data.map UInt8.toNat = b.data.map UInt8.toNat :=
    Digits.value_inj (bytes_lt _) (bytes_lt _) (by simp [a.size, b.size]) h
  cases a
  cases b
  cases bytes_inj hdata
  rfl

/-! ## The comparison by words -/

/-- The word of index `i` in the bytes, as a little-endian host loads it. -/
def hostWord (data : List UInt8) (i : Nat) : UInt64 :=
  UInt64.ofNat (Digits.value 256 (((data.drop (8 * i)).take 8).reverse.map UInt8.toNat))

theorem hostWord_toNat (data : List UInt8) (i : Nat) :
    (hostWord data i).toNat = Digits.value 256 (((data.drop (8 * i)).take 8).reverse.map UInt8.toNat) := by
  refine Nat.mod_eq_of_lt ?_
  calc _ < 256 ^ (((data.drop (8 * i)).take 8).reverse.map UInt8.toNat).length := Digits.value_lt (bytes_lt _)
    _ ≤ 256 ^ 8 := Nat.pow_le_pow_right (by decide) (by simp)

theorem take_eq_of_hostWord {a b : H256} {i : Nat} (h : hostWord a.data i = hostWord b.data i) :
    (a.data.drop (8 * i)).take 8 = (b.data.drop (8 * i)).take 8 := by
  have hvalue := congrArg UInt64.toNat h
  rw [hostWord_toNat, hostWord_toNat] at hvalue
  have hbytes := Digits.value_inj (bytes_lt _) (bytes_lt _) (by simp [a.size, b.size]) hvalue
  exact List.reverse_inj.mp (bytes_inj hbytes)

namespace FixedHash

def equalWords (a b : H256) : Bool :=
  hostWord a.data 0 == hostWord b.data 0 && hostWord a.data 1 == hostWord b.data 1 &&
    hostWord a.data 2 == hostWord b.data 2 && hostWord a.data 3 == hostWord b.data 3

def lessOrEqual (a b : H256) : Bool := equalWords a b || a.less b

def greater (a b : H256) : Bool := !lessOrEqual a b

theorem equalWords_iff (a b : H256) : equalWords a b = true ↔ a = b := by
  constructor
  · intro h
    simp only [equalWords, Bool.and_eq_true, beq_iff_eq] at h
    obtain ⟨⟨⟨h0, h1⟩, h2⟩, h3⟩ := h
    have hsplit (x : H256) : x.data = (x.data.drop (8 * 0)).take 8 ++ ((x.data.drop (8 * 1)).take 8 ++
        ((x.data.drop (8 * 2)).take 8 ++ (x.data.drop (8 * 3)).take 8)) := by
      have hlast : (x.data.drop (8 * 3)).take 8 = x.data.drop (8 * 3) := List.take_of_length_le (by simp [x.size])
      have hjoin (k : Nat) : (x.data.drop (8 * k)).take 8 ++ x.data.drop (8 * (k + 1)) = x.data.drop (8 * k) := by
        rw [Nat.mul_succ, ← List.drop_drop, List.take_append_drop]
      rw [hlast, hjoin 2, hjoin 1, hjoin 0]
      rfl
    have hdata : a.data = b.data := by
      rw [hsplit a, hsplit b, take_eq_of_hostWord h0, take_eq_of_hostWord h1, take_eq_of_hostWord h2,
        take_eq_of_hostWord h3]
    cases a
    cases b
    cases hdata
    rfl
  · rintro rfl
    simp [equalWords]

theorem lessOrEqual_iff (a b : H256) : lessOrEqual a b = true ↔ a.value ≤ b.value := by
  rw [lessOrEqual, Bool.or_eq_true, equalWords_iff, less_iff, Nat.le_iff_lt_or_eq, or_comm]
  exact or_congr_right ⟨congrArg value, value_inj⟩

end FixedHash

end CoreMiner.DevCore
