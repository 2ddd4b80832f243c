/-
  CoreMiner.EthashCpu.Picosha3 — the SHA-3 hash of the seed that a nonce is tried with
  (`picosha3.h`), and its permutation against that of the standard.

  The state is the array of 25 lanes, `A[x][y]`. The step functions are as the source writes
  them: the loop of `rho` walks over the lanes and rotates each of them in place. `HashGenerator`
  has its buffer and its position, the state, and the digest of the last `finish`; the template
  parameters are those of the type. In `add_padding` the distance to the begin of the buffer is
  negative and is cast to `size_t`, so that `q` is the size and the position together, and not
  what is left of the buffer.

  The bits of the lanes are the state of Keccak-p[1600, 24]. Each step function works on them as
  the step mapping of its name, `rho` by an invariant of its loop (`rho_turns`): the lanes it has
  come to are rotated, and the others are as they were. So `keccak_p` is the permutation
  (`bits_keccakP`), with its constants those of the shift register, and as such it loses nothing
  of the state (`keccakP_injective`).
-/

import CoreMiner.Lib.Keccak
import Mathlib.Data.List.FinRange
import Mathlib.Tactic.FinCases

namespace CoreMiner.EthashCpu.Picosha3

open Lib

-- The counters of the loops start at 0 and wrap around.
instance neZero_five : NeZero 5 := ⟨by decide⟩

instance neZero_eight : NeZero 8 := ⟨by decide⟩

/-! ## The permutation -/

abbrev State := Vector (Vector UInt64 5) 5

def RC : Vector UInt64 24 := #v[
  0x0000000000000001, 0x0000000000008082, 0x800000000000808A, 0x8000000080008000, 0x000000000000808B,
  0x0000000080000001, 0x8000000080008081, 0x8000000000008009, 0x000000000000008A, 0x0000000000000088,
  0x0000000080008009, 0x000000008000000A, 0x000000008000808B, 0x800000000000008B, 0x8000000000008089,
  0x8000000000008003, 0x8000000000008002, 0x8000000000000080, 0x000000000000800A, 0x800000008000000A,
  0x8000000080008081, 0x8000000000008080, 0x0000000080000001, 0x8000000080008008]

namespace State

def lane (A : State) (x y : Fin 5) : UInt64 := A[x][y]

def setLane (A : State) (x y : Fin 5) (v : UInt64) : State := A.set x (A[x].set y v)

def ofLanes (f : Fin 5 → Fin 5 → UInt64) : State := Vector.ofFn fun x => Vector.ofFn fun y => f x y

end State

def rotate (v : UInt64) (k : Nat) : UInt64 := v <<< UInt64.ofNat k ||| v >>> UInt64.ofNat (64 - k)

def theta (A : State) : State :=
  let C : Vector UInt64 5 := Vector.ofFn fun x => A.lane x 0 ^^^ A.lane x 1 ^^^ A.lane x 2 ^^^ A.lane x 3 ^^^ A.lane x 4
  let D : Vector UInt64 5 := #v[
    C[4] ^^^ rotate C[1] 1, C[0] ^^^ rotate C[2] 1, C[1] ^^^ rotate C[3] 1, C[2] ^^^ rotate C[4] 1,
    C[3] ^^^ rotate C[0] 1]
  State.ofLanes fun x y => A.lane x y ^^^ D[x]

def rhoTurn (p : State × Fin 5 × Fin 5) (t : Nat) : State × Fin 5 × Fin 5 :=
  let offset := (t + 1) * (t + 2) / 2 % 64
  (p.1.setLane p.2.1 p.2.2 (rotate (p.1.lane p.2.1 p.2.2) offset), p.2.2, 2 * p.2.1 + 3 * p.2.2)

def rho (A : State) : State := ((List.range 24).foldl rhoTurn (A, 1, 0)).1

def pi (A : State) : State := State.ofLanes fun x y => A.lane (x + 3 * y) x

def chi (A : State) : State := State.ofLanes fun x y => A.lane x y ^^^ (~~~A.lane (x + 1) y &&& A.lane (x + 2) y)

def iota (A : State) (roundIndex : Fin 24) : State := A.setLane 0 0 (A.lane 0 0 ^^^ RC[roundIndex])

def keccakP (A : State) : State :=
  (List.finRange 24).foldl (fun A roundIndex => iota (chi (pi (rho (theta A)))) roundIndex) A

/-! ## Bytes and lanes -/

/-- The counters that go over the bytes of the state. Behind the last byte, `y` is 5. -/
@[ext]
structure Cursor where
  x : Fin 5
  y : Nat
  i : Fin 8

namespace Cursor

def first : Cursor := ⟨0, 0, 0⟩

def next (c : Cursor) : Cursor :=
  if c.i.val + 1 ≠ 8 then { c with i := c.i + 1 }
  else if c.x.val + 1 ≠ 5 then { c with i := 0, x := c.x + 1 }
  else { i := 0, x := 0, y := c.y + 1 }

end Cursor

def absorbFrom (A : State) (c : Cursor) : List UInt8 → State
  | [] => A
  | b :: bytes =>
    if h : c.y < 5 then
      let y : Fin 5 := ⟨c.y, h⟩
      absorbFrom (A.setLane c.x y (A.lane c.x y ^^^ b.toUInt64 <<< UInt64.ofNat (c.i * 8))) c.next bytes
    else A

def absorb (bytes : List UInt8) (A : State) : State := absorbFrom A .first bytes

/-- The loop of `squeeze`, with `room` bytes from `first` to `last`. -/
def squeezeFrom (A : State) (rate : Nat) (c : Cursor) (readBytes : Nat) : Nat → List UInt8
  | 0 => []
  | room + 1 =>
    if h : c.y < 5 ∧ readBytes < rate then
      (A.lane c.x ⟨c.y, h.1⟩ >>> UInt64.ofNat (c.i * 8)).toUInt8 ::
        squeezeFrom A rate c.next (readBytes + 1) room
    else []

def squeeze (A : State) (room rate : Nat) : List UInt8 := squeezeFrom A rate .first 0 room

/-! ## The generator -/

inductive PaddingType where
  | SHA
  | SHAKE
  deriving DecidableEq

structure HashGenerator (rate d : Nat) (padding : PaddingType) where
  buffer : List UInt8
  bufferPos : Nat
  A : State
  hash : List UInt8
  isFinished : Bool
  size : buffer.length = rate
  inside : bufferPos < rate

namespace HashGenerator

variable {rate d : Nat} {padding : PaddingType} [NeZero rate]

def cleared : State := State.ofLanes fun _ _ => 0

theorem length_zeros (rate : Nat) : (List.replicate rate (0 : UInt8)).length = rate := List.length_replicate

def new : HashGenerator rate d padding where
  buffer := List.replicate rate 0
  bufferPos := 0
  A := cleared
  hash := List.replicate d 0
  isFinished := false
  size := length_zeros rate
  inside := Nat.pos_of_neZero rate

def clearBuffer (g : HashGenerator rate d padding) : HashGenerator rate d padding :=
  { g with
    buffer := List.replicate rate 0
    bufferPos := 0
    size := length_zeros rate
    inside := Nat.pos_of_neZero rate }

def clear (g : HashGenerator rate d padding) : HashGenerator rate d padding :=
  { g.clearBuffer with A := cleared, isFinished := false }

def processByte (g : HashGenerator rate d padding) (b : UInt8) : HashGenerator rate d padding :=
  let buffer := g.buffer.set g.bufferPos b
  if h : g.bufferPos + 1 = rate then { g with A := keccakP (absorb buffer g.A) }.clearBuffer
  else
    { g with
      buffer := buffer
      bufferPos := g.bufferPos + 1
      size := by rw [List.length_set, g.size]
      inside := Nat.lt_of_le_of_ne g.inside h }

def process (g : HashGenerator rate d padding) (bytes : List UInt8) : HashGenerator rate d padding :=
  bytes.foldl processByte g

/-- The bytes of `add_padding`: the one for a position at the end, and the one for any other. -/
def marks : PaddingType → UInt8 × UInt8
  | .SHA => (0x86, 0x06)
  | .SHAKE => (0x9F, 0x1F)

/-- `add_padding`. The distance from the position to the begin is cast to `size_t`. -/
def addPadding (g : HashGenerator rate d padding) : HashGenerator rate d padding :=
  let distance : UInt64 := -UInt64.ofNat g.bufferPos
  let q := UInt64.ofNat rate - distance
  { g with
    buffer :=
      if q = 1 then g.buffer.set g.bufferPos (marks padding).1
      else (g.buffer.set g.bufferPos (marks padding).2).set (rate - 1) 0x80
    size := by split <;> simp only [List.length_set, g.size] }

/-- The loop of `squeeze_`, with the state it leaves. A turn with room reads a byte at least. -/
def squeezeAll (rate : Nat) : Nat → State → Nat → List UInt8 × State
  | 0, A, _ => ([], A)
  | fuel + 1, A, room =>
    let bytes := squeeze A room rate
    if bytes.length = room then (bytes, A)
    else
      let rest := squeezeAll rate fuel (keccakP A) (room - bytes.length)
      (bytes ++ rest.1, rest.2)

def finish (g : HashGenerator rate d padding) : HashGenerator rate d padding :=
  let g := g.addPadding
  let squeezed := squeezeAll rate (d + 1) (keccakP (absorb g.buffer g.A)) d
  { g with A := squeezed.2, hash := squeezed.1, isFinished := true }

def getHashBytes (g : HashGenerator rate d padding) : Except String (List UInt8) :=
  if g.isFinished then .ok g.hash else .error "Not finished!"

def call (g : HashGenerator rate d padding) (bytes : List UInt8) : List UInt8 × HashGenerator rate d padding :=
  let g := (g.process bytes).finish
  (g.hash, g.clear)

end HashGenerator

inductive DigestBits where
  | b224
  | b256
  | b384
  | b512
  deriving DecidableEq

def DigestBits.bits : DigestBits → Nat
  | .b224 => 224
  | .b256 => 256
  | .b384 => 384
  | .b512 => 512

inductive StrengthBits where
  | b128
  | b256
  deriving DecidableEq

def StrengthBits.bits : StrengthBits → Nat
  | .b128 => 128
  | .b256 => 256

def rateBytes (capacityBytes : Nat) : Nat := 1600 / 8 - capacityBytes

abbrev Sha3 (d : DigestBits) := HashGenerator (rateBytes (d.bits / 8 * 2)) (d.bits / 8) .SHA

abbrev Shake (s : StrengthBits) (dBits : Nat) := HashGenerator (rateBytes (s.bits / 8 * 2)) (dBits / 8) .SHAKE

instance (d : DigestBits) : NeZero (rateBytes (d.bits / 8 * 2)) := ⟨by cases d <;> decide⟩

instance (s : StrengthBits) : NeZero (rateBytes (s.bits / 8 * 2)) := ⟨by cases s <;> decide⟩

/-! ## Lanes -/

namespace State

@[simp] theorem lane_ofLanes (f : Fin 5 → Fin 5 → UInt64) (x y : Fin 5) : (ofLanes f).lane x y = f x y := by
  simp [lane, ofLanes]

theorem lane_setLane (A : State) (x y : Fin 5) (v : UInt64) (x' y' : Fin 5) :
    (A.setLane x y v).lane x' y' = if x = x' ∧ y = y' then v else A.lane x' y' := by
  by_cases hx : x = x'
  · subst hx
    by_cases hy : y = y'
    · subst hy
      simp [lane, setLane]
    · have hval : y.val ≠ y'.val := fun h => hy (Fin.ext h)
      simp [lane, setLane, hy, hval]
  · have hval : x.val ≠ x'.val := fun h => hx (Fin.ext h)
    simp [lane, setLane, hx, hval]

@[simp] theorem lane_setLane_self (A : State) (x y : Fin 5) (v : UInt64) : (A.setLane x y v).lane x y = v := by
  simp [lane_setLane]

theorem ext {A B : State} (h : ∀ x y, A.lane x y = B.lane x y) : A = B := by
  apply Vector.ext
  intro x hx
  apply Vector.ext
  intro y hy
  exact h ⟨x, hx⟩ ⟨y, hy⟩

end State

/-! ## Bits -/

def bit (v : UInt64) (z : Fin 64) : Bool := v.toBitVec.getLsbD z

@[simp] theorem bit_xor (v w : UInt64) (z : Fin 64) : bit (v ^^^ w) z = (bit v z ^^ bit w z) := by
  simp [bit]

@[simp] theorem bit_and (v w : UInt64) (z : Fin 64) : bit (v &&& w) z = (bit v z && bit w z) := by
  simp [bit]

@[simp] theorem bit_not (v : UInt64) (z : Fin 64) : bit (~~~v) z = !bit v z := by
  simp [bit]

@[simp] theorem bit_zero (z : Fin 64) : bit 0 z = false := by
  simp [bit]

theorem bit_ext {v w : UInt64} (h : ∀ z, bit v z = bit w z) : v = w := by
  apply UInt64.toBitVec_inj.mp
  apply BitVec.eq_of_getLsbD_eq
  intro i hi
  exact h ⟨i, hi⟩

theorem toNat_amount {k : Nat} (h : k < 64) : ((UInt64.ofNat k).toBitVec % 64).toNat = k := by
  have hmod : k % 18446744073709551616 % 64 = k := by omega
  simpa [BitVec.toNat_umod] using hmod

theorem getLsbD_shiftLeft (v : UInt64) {k i : Nat} (hk : k < 64) (hi : i < 64) :
    (v <<< UInt64.ofNat k).toBitVec.getLsbD i = (decide (k ≤ i) && v.toBitVec.getLsbD (i - k)) := by
  rw [UInt64.toBitVec_shiftLeft, BitVec.shiftLeft_eq', toNat_amount hk, BitVec.getLsbD_shiftLeft]
  by_cases h : k ≤ i
  · simp [hi, h, Nat.not_lt.mpr h]
  · simp [h, Nat.lt_of_not_le h]

theorem getLsbD_shiftRight (v : UInt64) {k : Nat} (hk : k < 64) (i : Nat) :
    (v >>> UInt64.ofNat k).toBitVec.getLsbD i = v.toBitVec.getLsbD (k + i) := by
  rw [UInt64.toBitVec_shiftRight, BitVec.ushiftRight_eq', toNat_amount hk, BitVec.getLsbD_ushiftRight]

/-- A rotation moves the bits around. It is one for a shift that is neither 0 nor 64. -/
theorem bit_rotate (v : UInt64) {k : Nat} (hpos : 0 < k) (hlt : k < 64) (z : Fin 64) :
    bit (rotate v k) z = bit v (z - Fin.ofNat 64 k) := by
  have hz := z.isLt
  have hback : (z - Fin.ofNat 64 k).val = (64 - k + z.val) % 64 := by
    rw [Fin.sub_def]
    simp [Nat.mod_eq_of_lt hlt]
  simp only [bit, rotate, hback, UInt64.toBitVec_or, BitVec.getLsbD_or, getLsbD_shiftLeft v hlt hz,
    getLsbD_shiftRight v (show 64 - k < 64 by omega)]
  by_cases hle : k ≤ z.val
  · -- what is shifted down ends in front of the bit
    have houter : v.toBitVec.getLsbD (64 - k + z) = false := BitVec.getLsbD_of_ge _ _ (by omega)
    have hindex : (64 - k + z.val) % 64 = z - k := by omega
    simp [hle, houter, hindex]
  · have hindex : (64 - k + z.val) % 64 = 64 - k + z := by omega
    simp [hle, hindex]

def State.bits (A : State) : Keccak.Bits := fun x y => bit (A.lane x y)

theorem State.bits_injective : Function.Injective State.bits := by
  intro A B h
  apply State.ext
  intro x y
  apply bit_ext
  intro z
  exact congrFun (congrFun (congrFun h x) y) z

/-! ## The step functions -/

/-- The columns next to a column, as `theta` spells them out. -/
theorem theta_lane (A : State) (x y : Fin 5) :
    let C := fun x => A.lane x 0 ^^^ A.lane x 1 ^^^ A.lane x 2 ^^^ A.lane x 3 ^^^ A.lane x 4
    (theta A).lane x y = A.lane x y ^^^ (C (x - 1) ^^^ rotate (C (x + 1)) 1) := by
  simp only [theta, State.lane_ofLanes]
  congr 1
  fin_cases x <;> rfl

theorem bits_theta (A : State) : (theta A).bits = Keccak.theta A.bits := by
  funext x y z
  simp only [State.bits, theta_lane, bit_xor, bit_rotate _ Nat.one_pos (by omega : 1 < 64), Keccak.theta, Keccak.parity]
  rfl

/-- The loop of `rho` comes to no lane twice. -/
theorem track_ne : ∀ t < 24, ∀ s < t, Keccak.track s ≠ Keccak.track t := by
  decide

/-- By how much the loop of `rho` rotates: never by nothing. -/
theorem rho_offset : ∀ t < 24, 0 < (t + 1) * (t + 2) / 2 % 64 := by
  decide

theorem track_succ (t : Nat) :
    Keccak.track (t + 1) = ((Keccak.track t).2, 2 * (Keccak.track t).1 + 3 * (Keccak.track t).2) :=
  Function.iterate_succ_apply' _ _ _

/-- The loop of `rho` after `n` turns: the lanes it came to are rotated, the others are as they were. -/
theorem rho_turns (A : State) {n : Nat} (hn : n ≤ 24) :
    let p := (List.range n).foldl rhoTurn (A, 1, 0)
    p.2 = Keccak.track n
      ∧ (∀ t < n, p.1.lane (Keccak.track t).1 (Keccak.track t).2
          = rotate (A.lane (Keccak.track t).1 (Keccak.track t).2) ((t + 1) * (t + 2) / 2 % 64))
      ∧ ∀ x y, (∀ t < n, Keccak.track t ≠ (x, y)) → p.1.lane x y = A.lane x y := by
  induction n with
  | zero => exact ⟨rfl, by simp, fun _ _ _ => rfl⟩
  | succ n ih =>
    obtain ⟨hat, hdone, hrest⟩ := ih (by omega)
    have hfresh := track_ne n (by omega)
    simp only [List.range_succ, List.foldl_append, List.foldl_cons, List.foldl_nil]
    generalize (List.range n).foldl rhoTurn (A, 1, 0) = p at hat hdone hrest
    simp only [rhoTurn, hat]
    refine ⟨(track_succ n).symm, ?_, ?_⟩
    · intro t ht
      rcases Nat.lt_succ_iff_lt_or_eq.mp ht with hlt | rfl
      · have hother : ¬((Keccak.track n).1 = (Keccak.track t).1 ∧ (Keccak.track n).2 = (Keccak.track t).2) :=
          fun h => hfresh t hlt (Prod.ext h.1.symm h.2.symm)
        rw [State.lane_setLane, if_neg hother, hdone t hlt]
      · have hlane := hrest (Keccak.track t).1 (Keccak.track t).2 hfresh
        rw [State.lane_setLane_self, hlane]
    · intro x y hnot
      have hother : ¬((Keccak.track n).1 = x ∧ (Keccak.track n).2 = y) :=
        fun h => hnot n (by omega) (Prod.ext h.1 h.2)
      rw [State.lane_setLane, if_neg hother, hrest x y fun t ht => hnot t (by omega)]

theorem bits_rho (A : State) : (rho A).bits = Keccak.rho A.bits := by
  obtain ⟨-, hdone, hrest⟩ := rho_turns A (Nat.le_refl 24)
  funext x y z
  simp only [State.bits, rho, Keccak.rho, Keccak.offset]
  cases hfind : (List.range 24).find? fun t => Keccak.track t = (x, y) with
  | none =>
    have hnot : ∀ t < 24, Keccak.track t ≠ (x, y) := by simpa using hfind
    simp [hrest x y hnot]
  | some t =>
    have hat : Keccak.track t = (x, y) := by simpa using List.find?_some hfind
    have hlt : t < 24 := by simpa using List.mem_of_find?_eq_some hfind
    have hlane := hdone t hlt
    rw [hat] at hlane
    have hmod : Fin.ofNat 64 ((t + 1) * (t + 2) / 2 % 64) = Fin.ofNat 64 ((t + 1) * (t + 2) / 2) :=
      Fin.ext (Nat.mod_mod _ _)
    rw [hlane, bit_rotate _ (rho_offset t hlt) (Nat.mod_lt _ (by omega)), hmod]

theorem bits_pi (A : State) : (pi A).bits = Keccak.pi A.bits := by
  funext x y z
  simp only [State.bits, pi, State.lane_ofLanes, Keccak.pi]

theorem bits_chi (A : State) : (chi A).bits = Keccak.chi A.bits := by
  funext x y z
  simp only [State.bits, chi, State.lane_ofLanes, Keccak.chi, bit_xor, bit_and, bit_not, Bool.xor_true]

/-- `RC` is what comes out of the shift register. -/
theorem bit_RC : ∀ (i : Fin 24) (z : Fin 64), bit RC[i] z = Keccak.constant i z := by
  decide +kernel

theorem bits_iota (A : State) (i : Fin 24) : (iota A i).bits = Keccak.iota i A.bits := by
  funext x y z
  simp only [State.bits, iota, State.lane_setLane, Keccak.iota]
  by_cases h : 0 = x ∧ 0 = y
  · obtain ⟨rfl, rfl⟩ := h
    rw [if_pos ⟨rfl, rfl⟩, bit_xor, bit_RC]
    rfl
  · have hother : ¬(x = 0 ∧ y = 0) := fun h' => h ⟨h'.1.symm, h'.2.symm⟩
    rw [if_neg h]
    simp [← Bool.decide_and, hother]

/-! ## The permutation of the standard -/

theorem bits_keccakP (A : State) : (keccakP A).bits = Keccak.permute A.bits := by
  have rounds (n : Nat) (hn : n ≤ 24) : (((List.finRange 24).take n).foldl
      (fun A i => iota (chi (pi (rho (theta A)))) i) A).bits = Keccak.rounds n A.bits := by
    induction n with
    | zero => rfl
    | succ n ih =>
      have hlen : n < (List.finRange 24).length := by simp only [List.length_finRange]; omega
      have hnext : (List.finRange 24).take (n + 1) = (List.finRange 24).take n ++ [⟨n, hn⟩] := by
        rw [List.take_succ_eq_append_getElem hlen, List.getElem_finRange]
        rfl
      rw [hnext, List.foldl_append]
      simp only [List.foldl_cons, List.foldl_nil, bits_iota, bits_chi, bits_pi, bits_rho, bits_theta, ih (by omega)]
      rfl
  have all := rounds 24 (Nat.le_refl 24)
  rwa [List.take_of_length_le (by simp)] at all

theorem keccakP_injective : Function.Injective keccakP := by
  intro A B h
  apply State.bits_injective
  apply Keccak.permute_bijective.injective
  rw [← bits_keccakP, ← bits_keccakP, h]

/-- `keccak_p` is Keccak-p[1600, 24] on the bits of the lanes, and a permutation of the states. -/
theorem keccakP_permutes : (∀ A : State, (keccakP A).bits = Keccak.permute A.bits) ∧ Function.Bijective keccakP := by
  have finite : Finite State := Finite.of_injective _ State.bits_injective
  exact ⟨bits_keccakP, Finite.injective_iff_bijective.mp keccakP_injective⟩

end CoreMiner.EthashCpu.Picosha3
