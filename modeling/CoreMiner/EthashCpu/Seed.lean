/-
  CoreMiner.EthashCpu.Seed — what `CPUMiner::search` hands to RandomY for a nonce.

  The forty bytes of the header and of the nonce leave half of a block of SHA3-512 for the
  padding, so the seed is the hash of the standard (`seed_standard`). It is the begin of a state from
  which the header and the nonce can be told (`seedState_injective`): what the miner may lose by a
  seed that it has tried before it loses in the 512 bits it keeps, and nowhere else.
-/

import CoreMiner.EthashCpu.Search
import CoreMiner.EthashCpu.Sha3

namespace CoreMiner.EthashCpu

open DevCore Lib Picosha3

def initData (header : H256) (n : UInt64) : List UInt8 := header.data ++ littleEndian n

def seed (header : H256) (n : UInt64) : List UInt8 := ((HashGenerator.new : Sha3 .b512).call (initData header n)).1

def seededHash (randomY : List UInt8 → H256) : Hash := fun bytes =>
  randomY ((HashGenerator.new : Sha3 .b512).call bytes).1

def seedState (header : H256) (n : UInt64) : State :=
  keccakP (absorb (HashGenerator.padded 72 .SHA (initData header n)) HashGenerator.cleared)

theorem length_initData (header : H256) (n : UInt64) : (initData header n).length = 40 := by
  simp [initData, littleEndian, header.size]

theorem seed_eq_digest (header : H256) (n : UInt64) :
    seed header n = HashGenerator.digest 72 64 .SHA (initData header n) :=
  (HashGenerator.holds_new.process (initData header n)).finish (by decide) (by decide)

/-- The message and its padding are one block. -/
theorem length_padded_initData (header : H256) (n : UInt64) :
    (HashGenerator.padded 72 .SHA (initData header n)).length = 72 := by
  rw [HashGenerator.length_padded (by decide), length_initData]

theorem seed_eq_take (header : H256) (n : UInt64) : seed header n = (stateBytes (seedState header n)).take 64 := by
  have hone : (initData header n).length / 72 + 1 = 0 + 1 := by rw [length_initData]
  have hblock : (HashGenerator.padded 72 .SHA (initData header n)).take 72
      = HashGenerator.padded 72 .SHA (initData header n) :=
    List.take_of_length_le (Nat.le_of_eq (length_padded_initData header n))
  have hlen (A : State) : 64 ≤ ((stateBytes A).take 72).length := by simp
  rw [seed_eq_digest, HashGenerator.digest, hone, Sponge.absorb, Sponge.absorb, hblock, Sponge.squeeze,
    List.take_append_of_le_length (hlen _), List.take_take]
  rfl

theorem seed_standard (header : H256) (n : UInt64) :
    messageBits (seed header n) = Keccak.sha3 512 (messageBits (initData header n)) := by
  rw [seed_eq_digest, messageBits_digest _ _ (by decide) (by rw [length_initData]; decide)]
  rfl

theorem littleEndian_injective : Function.Injective littleEndian := by
  intro n m h
  have byte (i : Nat) (hi : i < 8) : n.toNat / 256 ^ i % 256 = m.toNat / 256 ^ i % 256 := by
    have := congrArg (fun l => (l.getD i 0).toNat) h
    simpa [littleEndian, List.getD_eq_getElem?_getD, hi] using this
  have low (k : Nat) (hk : k ≤ 8) : n.toNat % 256 ^ k = m.toNat % 256 ^ k := by
    induction k with
    | zero => rw [pow_zero, Nat.mod_one, Nat.mod_one]
    | succ k ih => rw [Nat.mod_pow_succ, Nat.mod_pow_succ, ih (by omega), byte k (by omega)]
  have hall := low 8 (Nat.le_refl 8)
  rw [Nat.mod_eq_of_lt (show n.toNat < 256 ^ 8 from n.toNat_lt),
    Nat.mod_eq_of_lt (show m.toNat < 256 ^ 8 from m.toNat_lt)] at hall
  exact UInt64.toNat_inj.mp hall

theorem initData_injective {header header' : H256} {n n' : UInt64} (h : initData header n = initData header' n') :
    header = header' ∧ n = n' := by
  obtain ⟨hheader, hnonce⟩ := List.append_inj h (by rw [header.size, header'.size])
  refine ⟨?_, littleEndian_injective hnonce⟩
  cases header
  cases header'
  simpa using hheader

theorem seedState_injective {header header' : H256} {n n' : UInt64} (h : seedState header n = seedState header' n') :
    header = header' ∧ n = n' := by
  have hsize := length_padded_initData
  have hblocks := absorb_injective (by rw [hsize, hsize]) (by rw [hsize]; decide) (keccakP_injective h)
  have hpos : (initData header n).length % 72 = (initData header' n').length % 72 := by
    rw [length_initData, length_initData]
  rw [HashGenerator.padded, HashGenerator.padded, hpos] at hblocks
  exact initData_injective (List.append_cancel_right hblocks)

/-- The final hash of a nonce is RandomY of the standard's SHA3-512 of header and nonce, which are
the first bits of a state that no other header and nonce lead to. -/
theorem finalHash_of_seed (randomY : List UInt8 → H256) (header header' : H256) (n n' : UInt64) :
    finalHash (seededHash randomY) header n = randomY (seed header n)
      ∧ messageBits (seed header n) = Keccak.sha3 512 (messageBits (header.data ++ littleEndian n))
      ∧ seed header n = (stateBytes (seedState header n)).take 64
      ∧ (seedState header n = seedState header' n' ↔ header = header' ∧ n = n') := by
  refine ⟨rfl, seed_standard header n, seed_eq_take header n, seedState_injective, ?_⟩
  rintro ⟨rfl, rfl⟩
  rfl

end CoreMiner.EthashCpu
