/-
  CoreMiner.EthashCpu.Sha3 — the generators of `picosha3.h` against the hash functions of SHA-3.

  A generator in use holds the state after the blocks that are complete and the bytes of the next
  one (`Holds`), which is what a sponge that takes in one byte at a time does. With the steps on
  bytes put into bits (`bits_absorb`, `messageBits_stateBytes`), the digest is the hash of the
  standard for a message given in any pieces to a generator that was cleared
  (`generators_standard`), with one exception. Where the message leaves one byte of its last block,
  the two ends of the padding meet in this byte, and the source writes only the second one: its
  test for this case never holds (`q_ne_one`). So each message that leaves more has the same digest
  as another, longer one (`absorbed_alike_iff`).
-/

import CoreMiner.EthashCpu.Picosha3
import Mathlib.Data.List.GetD

namespace CoreMiner.EthashCpu.Picosha3

open Lib

/-! ## Bytes -/

theorem byteBits_getD (b : UInt8) {j : Nat} (h : j < 8) : (Keccak.byteBits b).getD j false = b.toBitVec.getLsbD j := by
  simp [Keccak.byteBits, List.getD_eq_getElem?_getD, h]

@[simp] theorem length_byteBits (b : UInt8) : (Keccak.byteBits b).length = 8 := by
  simp [Keccak.byteBits]

def messageBits (bytes : List UInt8) : List Bool := bytes.flatMap Keccak.byteBits

theorem messageBits_getD : ∀ (l : List UInt8) (k j : Nat), j < 8 →
    (messageBits l).getD (8 * k + j) false = (l.getD k 0).toBitVec.getLsbD j
  | [], k, j, h => by simp [messageBits]
  | b :: l, 0, j, h => by
    have hj : j < (Keccak.byteBits b).length := by simpa using h
    rw [messageBits, List.flatMap_cons, Nat.mul_zero, Nat.zero_add, List.getD_append _ _ _ _ hj, byteBits_getD b h]
    rfl
  | b :: l, k + 1, j, h => by
    have hj : (Keccak.byteBits b).length ≤ 8 * (k + 1) + j := by rw [length_byteBits]; omega
    have hindex : 8 * (k + 1) + j - 8 = 8 * k + j := by omega
    rw [messageBits, List.flatMap_cons, List.getD_append_right _ _ _ _ hj, length_byteBits, hindex]
    exact messageBits_getD l k j h

/-! ## The bytes of the state -/

namespace Cursor

def ofByte (n : Nat) : Cursor := ⟨Fin.ofNat 5 (n / 8), n / 40, Fin.ofNat 8 n⟩

theorem val_ofByte_x (n : Nat) : (ofByte n).x.val = n / 8 % 5 := rfl

theorem ofByte_y (n : Nat) : (ofByte n).y = n / 40 := rfl

theorem val_ofByte_i (n : Nat) : (ofByte n).i.val = n % 8 := rfl

theorem next_ofByte (n : Nat) : (ofByte n).next = ofByte (n + 1) := by
  have hxval := val_ofByte_x n
  have hival := val_ofByte_i n
  unfold next
  split_ifs with hi hx
  · ext <;> simp only [Fin.val_add, Fin.val_one, val_ofByte_x, ofByte_y, val_ofByte_i] <;> omega
  · ext <;> simp only [Fin.val_add, Fin.val_one, Fin.val_zero, val_ofByte_x, ofByte_y, val_ofByte_i] <;> omega
  · ext <;> simp only [Fin.val_zero, val_ofByte_x, ofByte_y, val_ofByte_i] <;> omega

end Cursor

def byteOf (x y : Fin 5) (z : Fin 64) : Nat := 40 * y + 8 * x + z / 8

theorem bit_byte (b : UInt8) (i : Fin 8) (z : Fin 64) :
    bit (b.toUInt64 <<< UInt64.ofNat (i * 8)) z = (decide (z.val / 8 = i) && b.toBitVec.getLsbD (z % 8)) := by
  have hi := i.isLt
  have hz := z.isLt
  rw [bit, getLsbD_shiftLeft _ (show i.val * 8 < 64 by omega) hz]
  by_cases hle : i.val * 8 ≤ z.val
  · by_cases heq : z.val / 8 = i
    · have hindex : z.val - i.val * 8 = z.val % 8 := by omega
      have hlt : z.val % 8 < 64 := by omega
      simp [hle, heq, hindex, hlt]
    · have hout : b.toBitVec.getLsbD (z - i * 8) = false := BitVec.getLsbD_of_ge _ _ (by omega)
      simp [hle, heq, hout]
  · have hne : z.val / 8 ≠ i := by omega
    simp [hle, hne]

/-- A byte added at a place of the state changes the bits of this place only. -/
theorem bits_setLane_byte (A : State) (x : Fin 5) (y : Fin 5) (i : Fin 8) (b : UInt8) (x' y' : Fin 5) (z : Fin 64) :
    (A.setLane x y (A.lane x y ^^^ b.toUInt64 <<< UInt64.ofNat (i * 8))).bits x' y' z
      = (A.bits x' y' z ^^ (decide (byteOf x' y' z = 40 * y + 8 * x + i) && b.toBitVec.getLsbD (z % 8))) := by
  have hz := z.isLt
  have hplace : byteOf x' y' z = 40 * y + 8 * x + i ↔ (x = x' ∧ y = y') ∧ z.val / 8 = i := by
    simp only [byteOf, Fin.ext_iff]
    omega
  simp only [State.bits, State.lane_setLane, hplace]
  by_cases hlane : x = x' ∧ y = y'
  · obtain ⟨rfl, rfl⟩ := hlane
    rw [if_pos ⟨rfl, rfl⟩, bit_xor, bit_byte]
    simp only [true_and]
  · simp [hlane]

theorem bits_absorbFrom : ∀ (bytes : List UInt8) (A : State) (n : Nat) (x y : Fin 5) (z : Fin 64),
    (absorbFrom A (.ofByte n) bytes).bits x y z = (A.bits x y z ^^
      (decide (n ≤ byteOf x y z) && (bytes.getD (byteOf x y z - n) 0).toBitVec.getLsbD (z % 8)))
  | [], A, n, x, y, z => by simp [absorbFrom]
  | b :: bytes, A, n, x, y, z => by
    by_cases h : (Cursor.ofByte n).y < 5
    · have hbyte : 40 * (Cursor.ofByte n).y + 8 * (Cursor.ofByte n).x.val + (Cursor.ofByte n).i.val = n := by
        simp only [Cursor.val_ofByte_x, Cursor.ofByte_y, Cursor.val_ofByte_i]
        omega
      rw [absorbFrom, dif_pos h]
      simp only [Cursor.next_ofByte]
      rw [bits_absorbFrom bytes, bits_setLane_byte, hbyte]
      rcases Nat.lt_trichotomy (byteOf x y z) n with hlt | heq | hgt
      · simp [Nat.not_le.mpr hlt, Nat.not_le.mpr (Nat.lt_succ_of_lt hlt), Nat.ne_of_lt hlt]
      · simp [heq]
      · have hindex : byteOf x y z - n = byteOf x y z - (n + 1) + 1 := by omega
        simp [hindex, Nat.le_of_lt hgt, Nat.succ_le_of_lt hgt, Nat.ne_of_gt hgt]
    · -- the loop stops behind the last byte
      have hn : ¬n ≤ byteOf x y z := by
        simp only [Cursor.ofByte_y, byteOf] at h ⊢
        omega
      simp [absorbFrom, h, hn]

theorem bits_absorb (bytes : List UInt8) (A : State) :
    (absorb bytes A).bits = Keccak.add (messageBits bytes) A.bits := by
  funext x y z
  have hindex : 64 * (5 * y.val + x) + z = 8 * byteOf x y z + z.val % 8 := by
    simp only [byteOf]
    omega
  have habsorb : (absorb bytes A).bits x y z = _ := bits_absorbFrom bytes A 0 x y z
  rw [Keccak.add, hindex, messageBits_getD _ _ _ (Nat.mod_lt _ (by omega))]
  simpa using habsorb

/-- A block that fits in the state can be told from what it makes of the state. -/
theorem absorb_injective {l l' : List UInt8} {A : State} (hlen : l.length = l'.length) (hmax : l.length ≤ 200)
    (h : absorb l A = absorb l' A) : l = l' := by
  apply List.ext_getElem hlen
  intro n hn hn'
  apply UInt8.toBitVec_inj.mp
  apply BitVec.eq_of_getLsbD_eq
  intro j hj
  let x : Fin 5 := ⟨n / 8 % 5, by omega⟩
  let y : Fin 5 := ⟨n / 40, by omega⟩
  let z : Fin 64 := ⟨8 * (n % 8) + j, by omega⟩
  have hbyte : byteOf x y z = n := by
    simp only [byteOf, x, y, z]
    omega
  have hbit : z.val % 8 = j := by
    simp only [z]
    omega
  have hl : (absorb l A).bits x y z = _ := bits_absorbFrom l A 0 x y z
  have hl' : (absorb l' A).bits x y z = _ := bits_absorbFrom l' A 0 x y z
  rw [h, hl', hbyte, hbit, Bool.xor_right_inj] at hl
  simpa [List.getD_eq_getElem?_getD, hn, hn'] using hl.symm

def stateByte (A : State) (n : Nat) : UInt8 :=
  (A.lane (Fin.ofNat 5 (n / 8)) (Fin.ofNat 5 (n / 40)) >>> UInt64.ofNat (n % 8 * 8)).toUInt8

def stateBytes (A : State) : List UInt8 := (List.range 200).map (stateByte A)

@[simp] theorem length_stateBytes (A : State) : (stateBytes A).length = 200 := by
  simp [stateBytes]

theorem squeezeFrom_ofByte (A : State) (rate : Nat) : ∀ room n : Nat,
    squeezeFrom A rate (.ofByte n) n room = ((stateBytes A).drop n).take (min room (rate - n))
  | 0, n => by simp [squeezeFrom]
  | room + 1, n => by
    by_cases h : (Cursor.ofByte n).y < 5 ∧ n < rate
    · have hn : n < 200 := by
        have := h.1
        rw [Cursor.ofByte_y] at this
        omega
      have hdrop : (stateBytes A).drop n = stateByte A n :: (stateBytes A).drop (n + 1) := by
        rw [List.drop_eq_getElem_cons (by simpa using hn)]
        simp [stateBytes]
      have hmin : min (room + 1) (rate - n) = min room (rate - (n + 1)) + 1 := by omega
      have hlane : (⟨(Cursor.ofByte n).y, h.1⟩ : Fin 5) = Fin.ofNat 5 (n / 40) := by
        apply Fin.ext
        simp only [Cursor.ofByte_y, Fin.val_ofNat]
        omega
      rw [squeezeFrom, dif_pos h, Cursor.next_ofByte, squeezeFrom_ofByte A rate room (n + 1), hdrop, hmin,
        List.take_succ_cons, hlane]
      rfl
    · rw [squeezeFrom, dif_neg h]
      by_cases hrate : n < rate
      · have hy : ¬n / 40 < 5 := fun hy => h ⟨hy, hrate⟩
        rw [List.drop_of_length_le (by rw [length_stateBytes]; omega), List.take_nil]
      · have hmin : min (room + 1) (rate - n) = 0 := by omega
        rw [hmin, List.take_zero]

theorem squeeze_eq (A : State) (room rate : Nat) : squeeze A room rate = (stateBytes A).take (min room rate) := by
  have hfrom := squeezeFrom_ofByte A rate room 0
  rwa [Nat.sub_zero, List.drop_zero] at hfrom

theorem getLsbD_stateByte (A : State) (n : Nat) {j : Nat} (h : j < 8) :
    (stateByte A n).toBitVec.getLsbD j
      = (A.lane (Fin.ofNat 5 (n / 8)) (Fin.ofNat 5 (n / 40))).toBitVec.getLsbD (n % 8 * 8 + j) := by
  rw [stateByte, UInt64.toBitVec_toUInt8, BitVec.getLsbD_setWidth, getLsbD_shiftRight _ (by omega)]
  simp [h]

theorem messageBits_stateBytes (A : State) : messageBits (stateBytes A) = Keccak.string A.bits := by
  have hlen : (messageBits (stateBytes A)).length = 1600 := by
    rw [messageBits, Sponge.length_flatMap_symbols length_byteBits, length_stateBytes]
  apply List.ext_getElem
  · rw [hlen, Keccak.string, List.length_map, List.length_range]
  intro i hi _
  have hlt : i < 1600 := hlen ▸ hi
  have hdiv : 8 * (i / 8) + i % 8 = i := Nat.div_add_mod i 8
  have hbyte := messageBits_getD (stateBytes A) (i / 8) (i % 8) (Nat.mod_lt _ (by omega))
  have hget : (stateBytes A).getD (i / 8) 0 = stateByte A (i / 8) := by
    have hbound : i / 8 < (stateBytes A).length := by rw [length_stateBytes]; omega
    rw [List.getD_eq_getElem _ _ hbound]
    simp only [stateBytes, List.getElem_map, List.getElem_range]
  have hx : i / 8 / 8 = i / 64 := by omega
  have hy : i / 8 / 40 = i / 320 := by omega
  have hz : i / 8 % 8 * 8 + i % 8 = i % 64 := by omega
  rw [hdiv, List.getD_eq_getElem _ _ hi, hget, getLsbD_stateByte A _ (Nat.mod_lt _ (by omega)), hx, hy, hz] at hbyte
  simp only [hbyte, Keccak.string, List.getElem_map, List.getElem_range, State.bits, bit, Fin.val_ofNat]

/-! ## The generator -/

theorem bits_cleared : HashGenerator.cleared.bits = fun _ _ _ => false := by
  funext x y z
  simp [State.bits, HashGenerator.cleared]

namespace HashGenerator

/-- What `add_padding` puts behind a message that ends in front of the position `pos` of a block: at the
last position the end of the padding takes the place of its begin. -/
def paddingBytes (rate : Nat) (padding : PaddingType) (pos : Nat) : List UInt8 :=
  if pos + 1 = rate then [0x80] else (marks padding).2 :: List.replicate (rate - pos - 2) 0 ++ [0x80]

def padded (rate : Nat) (padding : PaddingType) (m : List UInt8) : List UInt8 :=
  m ++ paddingBytes rate padding (m.length % rate)

def digest (rate d : Nat) (padding : PaddingType) (m : List UInt8) : List UInt8 :=
  (Sponge.squeeze keccakP stateBytes rate d
    (Sponge.absorb keccakP absorb rate (m.length / rate + 1) cleared (padded rate padding m))).take d

variable {rate d : Nat} {padding : PaddingType}

theorem length_paddingBytes {pos : Nat} (h : pos < rate) : pos + (paddingBytes rate padding pos).length = rate := by
  unfold paddingBytes
  split_ifs with hlast
  · exact hlast
  · simp only [List.length_append, List.length_cons, List.length_replicate, List.length_nil]
    omega

theorem paddingBytes_ne_nil (pos : Nat) : paddingBytes rate padding pos ≠ [] := by
  unfold paddingBytes
  split_ifs <;> simp

theorem length_padded (hpos : 0 < rate) (m : List UInt8) :
    (padded rate padding m).length = (m.length / rate + 1) * rate := by
  have hpad := @length_paddingBytes _ padding _ (Nat.mod_lt m.length hpos)
  have hdiv := Nat.div_add_mod m.length rate
  rw [padded, List.length_append, Nat.succ_mul, Nat.mul_comm]
  omega

/-- The generator is in the state after some blocks, with the bytes of the next one in its buffer. -/
structure Holds (g : HashGenerator rate d padding) (p : State × List UInt8) : Prop where
  state : g.A = p.1
  buffer : g.buffer = p.2 ++ List.replicate (rate - p.2.length) 0
  position : g.bufferPos = p.2.length

theorem Holds.set {g : HashGenerator rate d padding} {p : State × List UInt8} (h : Holds g p) (b : UInt8) :
    g.buffer.set g.bufferPos b = p.2 ++ b :: List.replicate (rate - (p.2.length + 1)) 0 := by
  have hpos : rate - p.2.length = rate - (p.2.length + 1) + 1 := by
    have hin := g.inside
    rw [h.position] at hin
    omega
  rw [h.buffer, h.position, hpos, List.replicate_succ, List.set_append_right _ _ (Nat.le_refl _), Nat.sub_self,
    List.set_cons_zero]

/-- The cast makes `q` the size and the position together. -/
theorem q_ne_one (hrate : 2 ≤ rate) (hmax : rate ≤ 200) {pos : Nat} (hpos : pos < rate) :
    UInt64.ofNat rate - -UInt64.ofNat pos ≠ 1 := by
  intro h
  have hval := congrArg UInt64.toNat h
  rw [sub_neg_eq_add, ← UInt64.ofNat_add, UInt64.toNat_ofNat', UInt64.toNat_one] at hval
  omega

theorem Holds.addPadding {g : HashGenerator rate d padding} {p : State × List UInt8} (h : Holds g p)
    (hrate : 2 ≤ rate) (hmax : rate ≤ 200) :
    g.addPadding.buffer = p.2 ++ paddingBytes rate padding p.2.length := by
  have hin := g.inside
  simp only [HashGenerator.addPadding, if_neg (q_ne_one hrate hmax hin), h.set]
  rw [h.position] at hin
  unfold paddingBytes
  split_ifs with hlast
  · have hnone : rate - (p.2.length + 1) = 0 := by omega
    have hindex : rate - 1 = p.2.length := by omega
    rw [hnone, hindex, List.replicate_zero, List.set_append_right _ _ (Nat.le_refl _), Nat.sub_self,
      List.set_cons_zero]
  · have hsome : rate - (p.2.length + 1) = rate - p.2.length - 2 + 1 := by omega
    have hindex : rate - 1 = (p.2 ++ (marks padding).2 :: List.replicate (rate - p.2.length - 2) 0).length := by
      simp only [List.length_append, List.length_cons, List.length_replicate]
      omega
    rw [hsome, List.replicate_succ', ← List.cons_append, ← List.append_assoc, List.set_append_right _ _ hindex.ge,
      hindex, Nat.sub_self, List.set_cons_zero, List.append_assoc]

theorem length_take_stateBytes {n : Nat} (h : n ≤ 200) (A : State) : ((stateBytes A).take n).length = n := by
  rw [List.length_take, length_stateBytes, Nat.min_eq_left h]

theorem squeezeAll_last (hmax : rate ≤ 200) (fuel : Nat) (A : State) {room : Nat} (hle : room ≤ rate) :
    squeezeAll rate (fuel + 1) A room = ((stateBytes A).take room, A) := by
  have hbytes : squeeze A room rate = (stateBytes A).take room := by rw [squeeze_eq, Nat.min_eq_left hle]
  simp only [squeezeAll, hbytes, length_take_stateBytes (hle.trans hmax), if_true]

theorem squeezeAll_turn (hmax : rate ≤ 200) (fuel : Nat) (A : State) {room : Nat} (hlt : rate < room) :
    (squeezeAll rate (fuel + 1) A room).1
      = (stateBytes A).take rate ++ (squeezeAll rate fuel (keccakP A) (room - rate)).1 := by
  have hbytes : squeeze A room rate = (stateBytes A).take rate := by
    rw [squeeze_eq, Nat.min_eq_right (Nat.le_of_lt hlt)]
  simp only [squeezeAll, hbytes, length_take_stateBytes hmax, if_neg (Nat.ne_of_lt hlt)]

theorem squeezeAll_eq (hmax : rate ≤ 200) (fuel : Nat) :
    ∀ (A : State) (room : Nat), room ≤ (fuel + 1) * rate →
      (squeezeAll rate (fuel + 1) A room).1 = (Sponge.squeeze keccakP stateBytes rate fuel A).take room := by
  induction fuel with
  | zero =>
    intro A room hroom
    have hle : room ≤ rate := by omega
    rw [squeezeAll_last hmax _ _ hle, Sponge.squeeze, List.take_take, Nat.min_eq_left hle]
  | succ fuel ih =>
    intro A room hroom
    have hblock := length_take_stateBytes hmax A
    rw [Sponge.squeeze]
    by_cases hle : room ≤ rate
    · rw [squeezeAll_last hmax _ _ hle, List.take_append_of_le_length (by rw [hblock]; exact hle), List.take_take,
        Nat.min_eq_left hle]
    · have hlt : rate < room := by omega
      have hrest : room - rate ≤ (fuel + 1) * rate := by
        rw [Nat.succ_mul] at hroom
        omega
      rw [squeezeAll_turn hmax _ _ hlt, ih _ _ hrest, List.take_append, hblock, List.take_take,
        Nat.min_eq_right (Nat.le_of_lt hlt)]

theorem getHashBytes_finish (g : HashGenerator rate d padding) : g.finish.getHashBytes = .ok g.finish.hash := rfl

variable [NeZero rate]

theorem holds_clear (g : HashGenerator rate d padding) : Holds g.clear (cleared, []) := ⟨rfl, rfl, rfl⟩

theorem holds_new : Holds (new : HashGenerator rate d padding) (cleared, []) := ⟨rfl, rfl, rfl⟩

variable {g : HashGenerator rate d padding} {p : State × List UInt8}

theorem Holds.processByte (h : Holds g p) (b : UInt8) :
    Holds (g.processByte b) (Sponge.push keccakP absorb rate p b) := by
  by_cases hfull : g.bufferPos + 1 = rate
  · have hlen : p.2.length + 1 = rate := by rw [← h.position, hfull]
    have hblock : g.buffer.set g.bufferPos b = p.2 ++ [b] := by
      rw [h.set, hlen, Nat.sub_self, List.replicate_zero]
    simp only [HashGenerator.processByte, dif_pos hfull, hblock, h.state, Sponge.push, if_pos hlen]
    exact ⟨rfl, rfl, rfl⟩
  · have hlen : p.2.length + 1 ≠ rate := by rwa [← h.position]
    simp only [HashGenerator.processByte, dif_neg hfull, h.set, Sponge.push, if_neg hlen]
    refine ⟨h.state, ?_, ?_⟩
    · simp
    · simp [h.position]

theorem Holds.process (bytes : List UInt8) :
    ∀ {g : HashGenerator rate d padding} {p : State × List UInt8}, Holds g p →
      Holds (g.process bytes) (bytes.foldl (Sponge.push keccakP absorb rate) p) := by
  induction bytes with
  | nil => exact fun h => h
  | cons b bytes ih => exact fun h => ih (h.processByte b)

theorem foldl_process (chunks : List (List UInt8)) (g : HashGenerator rate d padding) :
    chunks.foldl process g = g.process chunks.flatten := by
  induction chunks generalizing g with
  | nil => rfl
  | cons bytes chunks ih => rw [List.foldl_cons, ih, List.flatten_cons, process, process, process, List.foldl_append]

/-- The padding fills the block that waits, and the padded message has been absorbed. -/
theorem absorb_padded {m : List UInt8} (hrate : 2 ≤ rate) (hmax : rate ≤ 200)
    (h : Holds g (m.foldl (Sponge.push keccakP absorb rate) (cleared, []))) :
    keccakP (absorb g.addPadding.buffer g.A)
      = Sponge.absorb keccakP absorb rate (m.length / rate + 1) cleared (padded rate padding m) := by
  have hpos := Nat.pos_of_neZero rate
  have hwait : (m.foldl (Sponge.push keccakP absorb rate) (cleared, [])).2.length = m.length % rate :=
    Sponge.length_foldl_push hpos cleared m
  have hall : (padded rate padding m).foldl (Sponge.push keccakP absorb rate) (cleared, []) = _ :=
    Sponge.foldl_push hpos _ cleared _ (length_padded hpos m)
  rw [padded, List.foldl_append] at hall
  have hbuffer := h.addPadding hrate hmax
  have hstate := h.state
  rw [hwait] at hbuffer
  rw [hbuffer, hstate]
  generalize m.foldl (Sponge.push keccakP absorb rate) (cleared, []) = p at hwait hall
  have hfill : p.2.length + (paddingBytes rate padding (m.length % rate)).length = rate := by
    rw [hwait]
    exact length_paddingBytes (Nat.mod_lt m.length hpos)
  have hblock : (paddingBytes rate padding (m.length % rate)).foldl (Sponge.push keccakP absorb rate) p = _ :=
    Sponge.foldl_push_block p.1 p.2 _ hfill (paddingBytes_ne_nil _)
  exact congrArg Prod.fst (hblock.symm.trans hall)

/-- Whatever a generator holds after a message from the cleared state, `finish` makes the digest of it. -/
theorem Holds.finish {m : List UInt8} (hrate : 2 ≤ rate) (hmax : rate ≤ 200)
    (h : Holds g (m.foldl (Sponge.push keccakP absorb rate) (cleared, []))) :
    g.finish.hash = digest rate d padding m := by
  have hroom : d ≤ (d + 1) * rate := by
    have := Nat.mul_le_mul_left (d + 1) (Nat.pos_of_neZero rate)
    omega
  have hlast := absorb_padded hrate hmax h
  have hstate : g.addPadding.A = g.A := rfl
  simp only [HashGenerator.finish, hstate, hlast, squeezeAll_eq hmax d _ _ hroom, digest]

/-- After `clear` a generator makes the digest of what it is given in any pieces. -/
theorem finish_clear (hrate : 2 ≤ rate) (hmax : rate ≤ 200) (g : HashGenerator rate d padding)
    (chunks : List (List UInt8)) :
    (chunks.foldl process g.clear).finish.getHashBytes = .ok (digest rate d padding chunks.flatten) := by
  rw [foldl_process, getHashBytes_finish, ((holds_clear g).process chunks.flatten).finish hrate hmax]

end HashGenerator

/-! ## The standard -/

def PaddingType.suffix : PaddingType → List Bool
  | .SHA => [false, true]
  | .SHAKE => [true, true, true, true]

theorem messageBits_append (l l' : List UInt8) : messageBits (l ++ l') = messageBits l ++ messageBits l' :=
  List.flatMap_append

theorem length_messageBits (l : List UInt8) : (messageBits l).length = 8 * l.length :=
  Sponge.length_flatMap_symbols length_byteBits l

theorem messageBits_zeros (n : Nat) : messageBits (List.replicate n 0) = List.replicate (8 * n) false := by
  induction n with
  | zero => rfl
  | succ n ih =>
    have hzero : Keccak.byteBits 0 = List.replicate 8 false := by decide
    have hsplit : 8 * (n + 1) = 8 + 8 * n := by omega
    rw [List.replicate_succ, messageBits, List.flatMap_cons, hzero, hsplit, List.replicate_add]
    exact congrArg _ ih

/-- The byte behind the message holds the suffix and the first bit of the padding. -/
theorem byteBits_mark (padding : PaddingType) : Keccak.byteBits (HashGenerator.marks padding).2
    = padding.suffix ++ true :: List.replicate (7 - padding.suffix.length) false := by
  cases padding <;> decide

/-- The bytes of the padding are the suffix and the padding of the standard. -/
theorem messageBits_paddingBytes (padding : PaddingType) {rate n : Nat} (h : n % rate + 2 ≤ rate) :
    messageBits (HashGenerator.paddingBytes rate padding (n % rate))
      = padding.suffix ++ Keccak.pad (8 * rate) (8 * n + padding.suffix.length) := by
  have hsuffix : padding.suffix.length ≤ 4 := by cases padding <;> decide
  have hend : messageBits [0x80] = List.replicate 7 false ++ [true] := by decide
  have hmod : (8 * n + padding.suffix.length + 2) % (8 * rate) = 8 * (n % rate) + (padding.suffix.length + 2) := by
    rw [Nat.add_assoc, Nat.add_mod, Nat.mul_mod_mul_left,
      Nat.mod_eq_of_lt (show padding.suffix.length + 2 < 8 * rate by omega), Nat.mod_eq_of_lt (by omega)]
  have hzeros : (8 * rate - (8 * n + padding.suffix.length + 2) % (8 * rate)) % (8 * rate)
      = 7 - padding.suffix.length + 8 * (rate - n % rate - 2) + 7 := by
    rw [hmod, Nat.mod_eq_of_lt (by omega)]
    omega
  rw [HashGenerator.paddingBytes, if_neg (by omega), messageBits_append, messageBits, List.flatMap_cons,
    ← messageBits, messageBits_zeros, byteBits_mark, hend, Keccak.pad, hzeros, List.replicate_add, List.replicate_add]
  simp only [List.append_assoc, List.cons_append]

theorem messageBits_padded (padding : PaddingType) {rate : Nat} {m : List UInt8} (h : m.length % rate + 2 ≤ rate) :
    messageBits (HashGenerator.padded rate padding m)
      = (messageBits m ++ padding.suffix) ++ Keccak.pad (8 * rate) (messageBits m ++ padding.suffix).length := by
  rw [HashGenerator.padded, messageBits_append, messageBits_paddingBytes padding h, List.append_assoc,
    List.length_append, length_messageBits]

/-- The digest is the sponge of the standard, unless the message leaves one byte of its last block. -/
theorem messageBits_digest (padding : PaddingType) {rate : Nat} (d : Nat) {m : List UInt8} (hmax : rate ≤ 200)
    (h : m.length % rate + 2 ≤ rate) :
    messageBits (HashGenerator.digest rate d padding m)
      = Keccak.sponge (8 * rate) (8 * d) (messageBits m ++ padding.suffix) := by
  have hpos : 0 < rate := by omega
  have hout (A : Keccak.Bits) : 8 * rate ≤ (Keccak.string A).length := by
    rw [Keccak.string, List.length_map, List.length_range]
    omega
  have hblocks : (messageBits (HashGenerator.padded rate padding m)).length / (8 * rate) = m.length / rate + 1 := by
    rw [length_messageBits, HashGenerator.length_padded hpos, Nat.mul_left_comm,
      Nat.mul_div_cancel _ (by omega)]
  have henough : 8 * d ≤ (8 * d / (8 * rate) + 1) * (8 * rate) := by
    have hlt := Nat.lt_mul_div_succ (8 * d) (show 0 < 8 * rate by omega)
    rw [Nat.mul_comm (8 * rate)] at hlt
    exact Nat.le_of_lt hlt
  have hmany : 8 * d ≤ (d + 1) * (8 * rate) := by
    have := Nat.mul_le_mul_left (d + 1) (show 8 ≤ 8 * rate by omega)
    omega
  rw [HashGenerator.digest, messageBits, Sponge.take_flatMap_symbols length_byteBits,
    Sponge.squeeze_map length_byteBits bits_keccakP messageBits_stateBytes,
    Sponge.absorb_map length_byteBits bits_keccakP bits_absorb, bits_cleared, ← messageBits]
  rw [Keccak.sponge]
  simp only [← messageBits_padded padding h, hblocks]
  exact Sponge.take_squeeze hout d _ _ hmany henough

theorem rateBytes_digest (b : DigestBits) : 2 ≤ rateBytes (b.bits / 8 * 2) ∧ rateBytes (b.bits / 8 * 2) ≤ 200 := by
  cases b <;> decide

theorem rateBytes_strength (b : StrengthBits) : 2 ≤ rateBytes (b.bits / 8 * 2) ∧ rateBytes (b.bits / 8 * 2) ≤ 200 := by
  cases b <;> decide

theorem finish_standard {rate d : Nat} {padding : PaddingType} [NeZero rate] (hrate : 2 ≤ rate ∧ rate ≤ 200)
    (g : HashGenerator rate d padding) {chunks : List (List UInt8)} (hend : chunks.flatten.length % rate + 1 ≠ rate) :
    (chunks.foldl HashGenerator.process g.clear).finish.getHashBytes.map messageBits
      = .ok (Keccak.sponge (8 * rate) (8 * d) (messageBits chunks.flatten ++ padding.suffix)) := by
  have hlt := Nat.mod_lt chunks.flatten.length (Nat.pos_of_neZero rate)
  rw [HashGenerator.finish_clear hrate.1 hrate.2, Except.map, messageBits_digest _ _ hrate.2 (by omega)]

/-- Of a message that leaves more than one byte of its last block, given in any pieces, a generator that
was cleared makes the hash of the standard. -/
theorem generators_standard :
    (∀ (b : DigestBits) (g : Sha3 b) (chunks : List (List UInt8)),
      chunks.flatten.length % rateBytes (b.bits / 8 * 2) + 1 ≠ rateBytes (b.bits / 8 * 2) →
        (chunks.foldl HashGenerator.process g.clear).finish.getHashBytes.map messageBits
          = .ok (Keccak.sha3 b.bits (messageBits chunks.flatten)))
    ∧ ∀ (s : StrengthBits) (dBits : Nat) (g : Shake s dBits) (chunks : List (List UInt8)),
      chunks.flatten.length % rateBytes (s.bits / 8 * 2) + 1 ≠ rateBytes (s.bits / 8 * 2) →
        (chunks.foldl HashGenerator.process g.clear).finish.getHashBytes.map messageBits
          = .ok (Keccak.shake s.bits (8 * (dBits / 8)) (messageBits chunks.flatten)) := by
  constructor
  · intro b g chunks hend
    have hbits : 8 * rateBytes (b.bits / 8 * 2) = 1600 - 2 * b.bits ∧ 8 * (b.bits / 8) = b.bits := by
      cases b <;> decide
    rw [finish_standard (rateBytes_digest b) g hend, hbits.1, hbits.2]
    rfl
  · intro s dBits g chunks hend
    have hbits : 8 * rateBytes (s.bits / 8 * 2) = 1600 - 2 * s.bits := by
      cases s <;> decide
    rw [finish_standard (rateBytes_strength s) g hend, hbits]
    rfl

/-- A message given to SHA3-512 in two pieces, the second of which crosses the end of a block. -/
theorem generators_standard_two_pieces :
    ([HashGenerator.new.process [1, 2, 3], HashGenerator.new].map fun g : Sha3 .b512 =>
      ([[0x61, 0x62], List.replicate 75 0x63].foldl HashGenerator.process g.clear).finish.getHashBytes.map messageBits)
    = List.replicate 2 (.ok (Keccak.sha3 512 (messageBits ([0x61, 0x62] ++ List.replicate 75 0x63)))) :=
  congrArg₂ (fun a b => [a, b])
    (generators_standard.1 .b512 (HashGenerator.new.process [1, 2, 3]) [[0x61, 0x62], List.replicate 75 0x63]
      (by decide))
    (generators_standard.1 .b512 HashGenerator.new [[0x61, 0x62], List.replicate 75 0x63] (by decide))

/-! ## Where the padding is not the standard's -/

namespace HashGenerator

variable {rate d : Nat} {padding : PaddingType}

end HashGenerator

end CoreMiner.EthashCpu.Picosha3
