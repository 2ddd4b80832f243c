/-
  CoreMiner.Stratum.BlockNumbers — the block number of an eth-proxy job (`XcbStratumClient.cpp`:
  the `mining.notify` branch of `processResponse`).

  `stoul` reads 64 bits, and the field takes 32 with a sign. The range is checked behind the
  conversion, from above only, and what is thrown for a number out of range is a pointer: no
  handler sets the field back. So a number is stored or rejected as it should be exactly if it is
  in range, too large for `stoul`, or happens to become -1 (`block_exact_iff`).
-/

import CoreMiner.Stratum.Snapshot

namespace CoreMiner.DevCore

open Lib

/-! ## Prefixed numbers -/

theorem strtol16_prefixed {l : List Char} (h : ∀ c ∈ l, isHexDigit c = true) :
    strtol16 ('0' :: 'x' :: l) = some (false, hexValue l) := by
  have hsign : takeSign (('0' :: 'x' :: l).dropWhile isSpace) = (false, '0' :: 'x' :: l) := rfl
  simp only [strtol16, hsign]
  cases l with
  | nil => rfl
  | cons c rest =>
    have hskip : skipRadix ('0' :: 'x' :: c :: rest) = c :: rest := by
      rw [skipRadix, if_pos (h c List.mem_cons_self)]
    have htake : (c :: rest).takeWhile isHexDigit = c :: rest := List.takeWhile_eq_self_iff.mpr h
    simp only [hskip, htake, List.isEmpty_cons, Bool.false_eq_true, if_false]

theorem stoul_prefixed {l : List Char} (h : ∀ c ∈ l, isHexDigit c = true) :
    stoul ("0x" ++ String.ofList l) =
      if 2 ^ 64 ≤ hexValue l then .error .outOfRange else .ok (UInt64.ofNat (hexValue l)) := by
  have htext : ("0x" ++ String.ofList l).toList = '0' :: 'x' :: l := by simp
  simp only [stoul, htext, strtol16_prefixed h, Bool.false_eq_true, if_false]

theorem toInt32_ofNat {v : Nat} (h : v < 2 ^ 64) : toInt32 (UInt64.ofNat v) = Int.bmod v (2 ^ 32) := by
  unfold toInt32
  rw [UInt64.toNat_ofNat', Nat.mod_eq_of_lt h]

end CoreMiner.DevCore

namespace CoreMiner.Stratum

open DevCore EthCore Lib Prog

/-! ## What is wanted -/

/-- The number is stored, or -1; and it is stored if it is in range. -/
def BlockExact (v : Nat) (block : Int) : Prop :=
  (block = -1 ∨ block = v ∧ (v : Int) ≤ maxBlock) ∧ ((v : Int) ≤ maxBlock → block = v)

def frontReadable (prm : Json) (prmIdx : Nat) : Bool :=
  (prm.strIdx 0).isOk && (prm.strIdx prmIdx).isOk && (prm.strIdx (prmIdx + 1)).isOk && (prm.strIdx (prmIdx + 2)).isOk

/-! ## What is stored -/

section

variable {β : Type} {P : WorkPackage → Prop} {w : WorkPackage}

theorem wp_raise_bind_leaves {α : Type} {e : Except StdException α} {f : α → Prog WorkPackage Stop β}
    (herror : e.isOk = false → P w) (hok : ∀ a, e = .ok a → wp (f a) (fun _ => P) (fun _ => P) w) :
    wp (raise e >>= f) (fun _ => P) (fun _ => P) w := by
  rw [wp_bind, wp_raise]
  cases e with
  | error x => exact herror rfl
  | ok a => exact hok a rfl

end

/-- Behind the texts in front, the block is what the conversions make of its text; whatever the rest of the job does. -/
theorem stratumJob_block {prm : Json} {prmIdx : Nat} {text : String} (hsize : prmIdx + 3 < prm.size)
    (ht : prm.strIdx (prmIdx + 3) = .ok text) (hx : text.toList.take 2 = ['0', 'x']) (w : WorkPackage) :
    ((stratumJob ETHPROXY prm prmIdx).after w).block =
      if frontReadable prm prmIdx then blockOf text else w.block := by
  refine after_of_wp
    (P := fun w' : WorkPackage => w'.block = if frontReadable prm prmIdx then blockOf text else w.block) ?_
  have hfront {e : Bool} (h : e = false) (himp : frontReadable prm prmIdx = true → e = true) :
      w.block = if frontReadable prm prmIdx then blockOf text else w.block := by
    rw [if_neg fun hr => by rw [himp hr] at h; cases h]
  refine wp_raise_bind_leaves (hfront · fun hr => by simp_all [frontReadable]) fun job hjob => ?_
  rw [wp_bind, wp_modify]
  refine wp_raise_bind_leaves (hfront · fun hr => by simp_all [frontReadable]) fun header hheader => ?_
  refine wp_raise_bind_leaves (hfront · fun hr => by simp_all [frontReadable]) fun seed hseed => ?_
  refine wp_raise_bind_leaves (hfront · fun hr => by simp_all [frontReadable]) fun target htarget => ?_
  have hreadable : frontReadable prm prmIdx = true := by
    rw [frontReadable, hjob, hheader, hseed, htarget]
    rfl
  rw [if_pos hreadable, wp_bind, wp_modify, wp_bind, when, if_pos ⟨rfl, hsize⟩, ht, raise_ok_bind, when, if_pos hx]
  refine wp_mono (readBlock_block prm _ ht _) (fun _ w₁ hw₁ => ?_) fun _ _ hw₁ => congrArg WorkPackage.block hw₁
  have hblock : w₁.block = blockOf text := congrArg WorkPackage.block hw₁
  -- The conversions behind it write other fields.
  refine wp_raise_bind_leaves (fun _ => hblock) fun _ _ => wp_raise_bind_leaves (fun _ => hblock) fun _ _ => ?_
  rw [wp_bind, wp_modify]
  refine wp_raise_bind_leaves (fun _ => hblock) fun _ _ => ?_
  rw [wp_bind, wp_modify]
  refine wp_raise_bind_leaves (fun _ => hblock) fun _ _ => ?_
  rw [wp_modify]
  exact hblock

theorem blockOf_prefixed {l : List Char} (h : ∀ c ∈ l, isHexDigit c = true) :
    blockOf ("0x" ++ String.ofList l) = if 2 ^ 64 ≤ hexValue l then -1 else Int.bmod (hexValue l) (2 ^ 32) := by
  rw [blockOf, stoul_prefixed h]
  by_cases hbig : 2 ^ 64 ≤ hexValue l
  · rw [if_pos hbig, if_pos hbig]
  · rw [if_neg hbig, if_neg hbig]
    exact toInt32_ofNat (Nat.lt_of_not_le hbig)

theorem blockExact_blockOf_iff {l : List Char} (h : ∀ c ∈ l, isHexDigit c = true) :
    BlockExact (hexValue l) (blockOf ("0x" ++ String.ofList l)) ↔
      hexValue l ≤ 0x9660180 ∨ 2 ^ 64 ≤ hexValue l ∨ hexValue l % 2 ^ 32 = 2 ^ 32 - 1 := by
  rw [BlockExact, blockOf_prefixed h, maxBlock]
  generalize hexValue l = v
  by_cases hbig : 2 ^ 64 ≤ v
  · rw [if_pos hbig]
    omega
  · rw [if_neg hbig, Int.bmod_def]
    split <;> omega

/-- The block number of a job, any number of digits behind `0x`, is stored exactly or rejected if and only if it is in
    range, too large for `stoul`, or -1 in its low 32 bits. A job that fails in front of it leaves the field. -/
theorem block_exact_iff {prm : Json} {prmIdx : Nat} {digits : List Char} (hsize : prmIdx + 3 < prm.size)
    (htext : prm.strIdx (prmIdx + 3) = .ok ("0x" ++ String.ofList digits))
    (hdigits : ∀ c ∈ digits, isHexDigit c = true) (w : WorkPackage) :
    BlockExact (hexValue digits) ((stratumJob ETHPROXY prm prmIdx).after w).block ↔
      if frontReadable prm prmIdx then
        hexValue digits ≤ 0x9660180 ∨ 2 ^ 64 ≤ hexValue digits ∨ hexValue digits % 2 ^ 32 = 2 ^ 32 - 1
      else BlockExact (hexValue digits) w.block := by
  rw [stratumJob_block hsize htext (by simp) w]
  split
  · exact blockExact_blockOf_iff hdigits
  · exact Iff.rfl

def jobOfBlock (block : String) : Json := .arr [.str "", .str "", .str "", .str block]

theorem last_block_stored : BlockExact 0x9660180 ((stratumJob ETHPROXY (jobOfBlock "0x9660180") 0).after {}).block :=
  (@block_exact_iff _ _ "9660180".toList (by decide) rfl (List.all_eq_true.mp (by decide)) {}).mpr
    (.inl (by decide))

/-- The number 2^32 + 1 is stored as 1. -/
theorem block_wraps : ((stratumJob ETHPROXY (jobOfBlock "0x100000001") 0).after {}).block = 1 ∧
    ¬ BlockExact 0x100000001 ((stratumJob ETHPROXY (jobOfBlock "0x100000001") 0).after {}).block := by
  have hblock : ((stratumJob ETHPROXY (jobOfBlock "0x100000001") 0).after {}).block = 1 := by
    rw [@stratumJob_block _ _ "0x100000001" (by decide) rfl (by decide), if_pos (by decide)]
    decide +kernel
  refine ⟨hblock, ?_⟩
  rw [hblock, BlockExact, maxBlock]
  omega

end CoreMiner.Stratum
