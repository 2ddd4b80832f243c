/-
  CoreMiner.EthCore.Farm — work packages, miners and the farm that hands each miner its
  own nonce segment (libethcore: `EthashAux.h`, `Miner.cpp`, `Farm.cpp`; the API's
  `miner_setscramblerinfo`, `ApiServer.cpp`).

  `setWork` gives miner `i` the package with `startNonce` moved `i` segments on; segments
  are `2 ^ width` nonces wide. With an extranonce the width is what the residual range
  allows, `(unsigned)log2(pow(2, 64 - 4e) / n)`, with `log2` and `pow` exact; without one
  it is whatever width the farm last had. A conversion or a shift C++ leaves undefined
  makes `setWork` return `none`.

  Nothing in the source says that `n` segments fit into `2^64` nonces. It is the
  invariant `Fits` of every run (`reach_fits`): the default, the API's clamp and the
  extranonce width keep it, and the number of miners is 0 or the number of subscribed
  devices in every state, so a width that outlives its pool still fits
  (`setWork_segments_disjoint`).
-/

import CoreMiner.DevCore.Hex
import CoreMiner.Lib.Arcs

namespace CoreMiner.EthCore

open DevCore Lib

structure WorkPackage where
  job : String := ""
  boundary : H256 := .zero 32
  /-- The zero hash: no work. -/
  header : H256 := .zero 32
  seed : H256 := .zero 32
  epoch : Int := -1
  block : Int := -1
  startNonce : UInt64 := 0
  exSizeBytes : UInt16 := 0
  algo : String := "ethash"
  deriving DecidableEq

/-- Work that is to be mined has a boundary, so its difficulty is defined. -/
def WorkPackage.HasBoundary (w : WorkPackage) : Prop := w.header ≠ .zero 32 → w.boundary ≠ .zero 32

instance WorkPackage.decidableHasBoundary (w : WorkPackage) : Decidable w.HasBoundary :=
  inferInstanceAs (Decidable (_ → _))

structure Solution where
  nonce : UInt64
  mixHash : H256
  work : WorkPackage
  midx : Nat

/-! ## Miners -/

inductive MinerPauseEnum where
  | overHeating
  | apiRequest
  | farmPaused
  | insufficientMemory
  | initEpochError
  deriving DecidableEq, Repr

structure Miner where
  index : Nat
  work : WorkPackage := {}
  epoch : Int := -1
  pauseFlags : List MinerPauseEnum := []
  deriving DecidableEq

namespace Miner

def paused (m : Miner) : Bool := !m.pauseFlags.isEmpty

/-- `Miner::setWork`: a paused miner only drops its header. -/
def setWork (m : Miner) (wp : WorkPackage) : Miner :=
  if m.paused then { m with work := { m.work with header := .zero 32 } } else { m with work := wp }

def pause (m : Miner) (what : MinerPauseEnum) : Miner :=
  { m with pauseFlags := m.pauseFlags.insert what, work := { m.work with header := .zero 32 } }

def resume (m : Miner) (what : MinerPauseEnum) : Miner :=
  { m with pauseFlags := m.pauseFlags.filter (· ≠ what) }

end Miner

/-! ## The farm -/

inductive DeviceSubscriptionTypeEnum where
  | none
  | cpu
  deriving DecidableEq, Repr

structure Farm where
  /-- `m_DevicesCollection`, subscribed before the farm is built. -/
  devices : List DeviceSubscriptionTypeEnum
  ergodicity : Nat
  miners : List Miner := []
  currentWp : WorkPackage := {}
  isMining : Bool := false
  paused : Bool := false
  nonceScrambler : UInt64
  nonceSegmentWidth : Nat := 32

namespace Farm

def subscribed (f : Farm) : Nat := f.devices.count .cpu

/-- `(unsigned)log2(pow(2, 64 - 4e) / n)`: the cast truncates towards zero, so a quotient
    above 1/2 still gives 0; `none` where the cast (or the division by no miner) is undefined. -/
def segmentWidth (exSizeBytes n : Nat) : Option Nat :=
  if n = 0 ∨ 64 < 4 * exSizeBytes then none
  else if n ≤ 2 ^ (64 - 4 * exSizeBytes) then some (2 ^ (64 - 4 * exSizeBytes) / n).log2
  else if n < 2 * 2 ^ (64 - 4 * exSizeBytes) then some 0
  else none

def segmentStart (start : UInt64) (width i : Nat) : UInt64 := start + (UInt64.ofNat i <<< UInt64.ofNat width)

def packages (wp : WorkPackage) (start : UInt64) (width n : Nat) : List WorkPackage :=
  (List.range n).map fun i => { wp with startNonce := segmentStart start width i }

def shuffle (f : Farm) (random : UInt64) : Farm := { f with nonceScrambler := random }

/-- The loop over the miners: a new epoch reaches each of them first, and the loop leaves
    the farm's own package at the last start nonce. -/
def assign (f : Farm) (newWp : WorkPackage) (width : Nat) (given : List WorkPackage) : Farm :=
  let enter (m : Miner) : Miner := if f.currentWp.epoch = newWp.epoch then m else { m with epoch := newWp.epoch }
  { f with
    nonceSegmentWidth := width
    currentWp := given.getLast?.getD newWp
    miners := List.zipWith (fun m wp => (enter m).setWork wp) f.miners given }

def chooseSegments (f : Farm) (newWp : WorkPackage) : Option (UInt64 × Nat) :=
  if 0 < newWp.exSizeBytes
  then (segmentWidth newWp.exSizeBytes.toNat f.miners.length).map (newWp.startNonce, ·)
  else some (f.nonceScrambler, f.nonceSegmentWidth)

/-- The second half of `setWork`: the farm afterwards, and what each miner was given. -/
def distribute (f : Farm) (newWp : WorkPackage) : Option (Farm × List WorkPackage) :=
  match f.chooseSegments newWp with
  | none => none
  | some (start, width) =>
    if f.miners.length ≠ 0 ∧ 64 ≤ width then none
    else
      let given := packages newWp start width f.miners.length
      some (f.assign newWp width given, given)

/-- `Farm::setWork`; `random` is drawn when the farm shuffles for every job. -/
def setWork (f : Farm) (newWp : WorkPackage) (random : UInt64) : Option (Farm × List WorkPackage) :=
  (if f.ergodicity = 2 ∧ newWp.exSizeBytes = 0 then f.shuffle random else f).distribute newWp

def start (f : Farm) : Farm :=
  if f.isMining then f
  else if f.miners.isEmpty then
    { f with miners := (List.range f.subscribed).map fun i => { index := i }, isMining := true }
  else { f with isMining := true }

def stop (f : Farm) : Farm := if f.isMining then { f with miners := [], isMining := false } else f

def pause (f : Farm) : Farm := { f with paused := true, miners := f.miners.map (·.pause .farmPaused) }

def resume (f : Farm) : Farm := { f with paused := false, miners := f.miners.map (·.resume .farmPaused) }

def setNonceScrambler (f : Farm) (n : UInt64) : Farm := { f with nonceScrambler := n }

def setNonceSegmentWidth (f : Farm) (n : Nat) : Farm :=
  if f.currentWp.exSizeBytes = 0 then { f with nonceSegmentWidth := n } else f

def clampWidth (exp : Nat) : Nat :=
  let exp := if exp < 10 then 10 else exp
  if 50 < exp then 40 else exp

/-- `miner_setscramblerinfo` once its parameters are read: a missing one is the farm's own
    value, and at least one is given. -/
def setScramblerInfo (f : Farm) (nonce : Option UInt64) (width : Option Nat) : Farm :=
  if nonce.isNone ∧ width.isNone then f
  else (f.setNonceScrambler (nonce.getD f.nonceScrambler)).setNonceSegmentWidth
    (clampWidth (width.getD f.nonceSegmentWidth))

/-! ## Runs -/

inductive Op where
  | setWork (wp : WorkPackage) (random : UInt64)
  | shuffle (random : UInt64)
  | setNonceScrambler (n : UInt64)
  | setScramblerInfo (nonce : Option UInt64) (width : Option Nat)
  | start
  | stop
  | pause
  | resume

/-- Work comes while a miner exists, and an extranonce leaves each miner a nonce. -/
def Allowed (f : Farm) : Op → Prop
  | .setWork wp _ => 0 < f.miners.length ∧ (0 < wp.exSizeBytes → f.miners.length * 16 ^ wp.exSizeBytes.toNat ≤ 2 ^ 64)
  | _ => True

def apply (f : Farm) : Op → Option Farm
  | .setWork wp r => (f.setWork wp r).map (·.1)
  | .shuffle r => some (f.shuffle r)
  | .setNonceScrambler n => some (f.setNonceScrambler n)
  | .setScramblerInfo n w => some (f.setScramblerInfo n w)
  | .start => some f.start
  | .stop => some f.stop
  | .pause => some f.pause
  | .resume => some f.resume

def init (devices : List DeviceSubscriptionTypeEnum) (ergodicity : Nat) (random : UInt64) : Farm :=
  { devices, ergodicity, nonceScrambler := random }

inductive Reach : Farm → Prop
  | init (devices : List DeviceSubscriptionTypeEnum) (ergodicity : Nat) (random : UInt64) :
      Reach (init devices ergodicity random)
  | step {f g : Farm} (op : Op) : Reach f → Allowed f op → f.apply op = some g → Reach g

/-! ## Segments -/

/-- The nonces a miner tries: `2 ^ width` of them from `start` on, modulo `2^64`. -/
def segment (start : UInt64) (width : Nat) : Set UInt64 := { v | ∃ t < 2 ^ width, v = start + UInt64.ofNat t }

theorem segmentStart_toNat (start : UInt64) {width : Nat} (hw : width < 64) (i : Nat) :
    (segmentStart start width i).toNat = (start.toNat + i * 2 ^ width) % 2 ^ 64 := by
  rw [segmentStart, UInt64.toNat_add, UInt64.toNat_shiftLeft, UInt64.toNat_ofNat', UInt64.toNat_ofNat',
    Nat.mod_eq_of_lt (by omega : width < 2 ^ 64), Nat.mod_eq_of_lt hw, Nat.shiftLeft_eq, Nat.mod_mul_mod,
    Nat.add_mod_mod]

theorem mem_segment_toNat {start v : UInt64} {width i : Nat} (hw : width < 64)
    (hv : v ∈ segment (segmentStart start width i) width) :
    v.toNat ∈ Arcs.arc (2 ^ 64) start.toNat (2 ^ width) i := by
  obtain ⟨t, ht, rfl⟩ := hv
  refine ⟨t, ht, ?_⟩
  rw [UInt64.toNat_add, segmentStart_toNat start hw, UInt64.toNat_ofNat', Nat.add_mod_mod, Nat.mod_add_mod]

theorem segment_disjoint {start : UInt64} {width n i j : Nat} (hw : width < 64) (hfit : n * 2 ^ width ≤ 2 ^ 64)
    (hi : i < n) (hj : j < n) (hij : i ≠ j) :
    Disjoint (segment (segmentStart start width i) width) (segment (segmentStart start width j) width) := by
  rw [Set.disjoint_left]
  intro v hvi hvj
  exact Set.disjoint_left.mp (Arcs.arc_disjoint hfit hi hj hij) (mem_segment_toNat hw hvi) (mem_segment_toNat hw hvj)

theorem mul_pow_le_of_extranonce {e n : Nat} (hn : 0 < n) (h : n * 16 ^ e ≤ 2 ^ 64) :
    4 * e ≤ 64 ∧ n ≤ 2 ^ (64 - 4 * e) := by
  have hpow : (16 : Nat) ^ e = 2 ^ (4 * e) := by rw [pow_mul]; norm_num
  have he : 4 * e ≤ 64 := by
    by_contra hlt
    have : (2 : Nat) ^ 64 < 2 ^ (4 * e) := Nat.pow_lt_pow_right (by decide) (by omega)
    have := Nat.le_mul_of_pos_left (16 ^ e) hn
    omega
  refine ⟨he, Nat.le_of_mul_le_mul_right (c := 2 ^ (4 * e)) ?_ (by positivity)⟩
  rw [← pow_add, Nat.sub_add_cancel he, ← hpow]
  exact h

/-- The width an extranonce of `e ≥ 1` digits gives: what the comment in the source calls
    an equal division of the residual segment. -/
theorem segmentWidth_spec {e n : Nat} (he : 0 < e) (hn : 0 < n) (h : n * 16 ^ e ≤ 2 ^ 64) :
    ∃ w, segmentWidth e n = some w ∧ w = (2 ^ (64 - 4 * e) / n).log2 ∧ w < 64 ∧ n * 2 ^ w ≤ 2 ^ (64 - 4 * e) := by
  obtain ⟨he', hle⟩ := mul_pow_le_of_extranonce hn h
  have hfit := Arcs.mul_two_pow_log2_le hn hle
  refine ⟨_, ?_, rfl, ?_, hfit⟩
  · rw [segmentWidth, if_neg (by omega), if_pos hle]
  · have hw : 2 ^ (2 ^ (64 - 4 * e) / n).log2 ≤ 2 ^ (64 - 4 * e) :=
      (Nat.le_mul_of_pos_left _ hn).trans hfit
    have := (Nat.pow_le_pow_iff_right (by decide)).mp hw
    omega

/-! ## The invariant -/

@[simp] theorem packages_length (wp : WorkPackage) (start : UInt64) (width n : Nat) :
    (packages wp start width n).length = n := by
  simp [packages]

@[simp] theorem assign_miners_length (f : Farm) (wp : WorkPackage) (width : Nat) {given : List WorkPackage}
    (h : given.length = f.miners.length) : (f.assign wp width given).miners.length = f.miners.length := by
  rw [assign, List.length_zipWith, h, Nat.min_self]

/-- What `setWork` does: it chooses the segments, for a farm that may have been shuffled, and assigns them. -/
theorem setWork_cases {f g : Farm} {wp : WorkPackage} {random : UInt64} {given : List WorkPackage}
    (h : f.setWork wp random = some (g, given)) :
    ∃ scrambler start width, (0 < wp.exSizeBytes → scrambler = f.nonceScrambler) ∧
      { f with nonceScrambler := scrambler }.chooseSegments wp = some (start, width) ∧
      (f.miners.length ≠ 0 → width < 64) ∧ given = packages wp start width f.miners.length ∧
      g = { f with nonceScrambler := scrambler }.assign wp width given := by
  have key {scrambler : UInt64} (h : { f with nonceScrambler := scrambler }.distribute wp = some (g, given)) :
      ∃ start width, { f with nonceScrambler := scrambler }.chooseSegments wp = some (start, width) ∧
        (f.miners.length ≠ 0 → width < 64) ∧ given = packages wp start width f.miners.length ∧
        g = { f with nonceScrambler := scrambler }.assign wp width given := by
    unfold distribute at h
    split at h
    · cases h
    · rename_i start width hchoose
      split at h
      · cases h
      · rename_i hwidth
        cases h
        exact ⟨start, width, hchoose, fun hn => Nat.lt_of_not_le fun hle => hwidth ⟨hn, hle⟩, rfl, rfl⟩
  unfold setWork at h
  split at h
  · rename_i hshuffle
    exact ⟨random, (key h).imp fun start => .imp fun width hrest => ⟨fun hex => by simp [hshuffle.2] at hex, hrest⟩⟩
  · exact ⟨f.nonceScrambler, (key h).imp fun start => .imp fun width hrest => ⟨fun _ => rfl, hrest⟩⟩

/-- Which devices are subscribed never changes, and miners come and go all at once. -/
theorem apply_frame {f g : Farm} {op : Op} (h : f.apply op = some g) :
    g.devices = f.devices ∧
      (g.miners.length = f.miners.length ∨ g.miners.length = 0 ∨ g.miners.length = f.subscribed) := by
  cases op with
  | setWork wp random =>
    obtain ⟨⟨g', given⟩, hset, rfl⟩ := Option.map_eq_some_iff.mp h
    obtain ⟨scrambler, start, width, -, -, -, rfl, rfl⟩ := setWork_cases hset
    exact ⟨rfl, .inl (assign_miners_length _ wp width (packages_length ..))⟩
  | setScramblerInfo nonce width =>
    cases h
    simp only [setScramblerInfo, setNonceSegmentWidth]
    repeat' split
    all_goals exact ⟨rfl, .inl rfl⟩
  | start =>
    cases h
    simp only [start]
    split
    · exact ⟨rfl, .inl rfl⟩
    split
    · exact ⟨rfl, .inr (.inr (by simp))⟩
    · exact ⟨rfl, .inl rfl⟩
  | stop =>
    cases h
    simp only [stop]
    split
    · exact ⟨rfl, .inr (.inl rfl)⟩
    · exact ⟨rfl, .inl rfl⟩
  | pause => cases h; exact ⟨rfl, .inl (List.length_map _)⟩
  | resume => cases h; exact ⟨rfl, .inl (List.length_map _)⟩
  | _ => cases h; exact ⟨rfl, .inl rfl⟩

/-- There are no miners, or one for each subscribed device. -/
theorem reach_count {f : Farm} (h : Reach f) : f.miners.length = 0 ∨ f.miners.length = f.subscribed := by
  induction h with
  | init => exact .inl rfl
  | step op _ _ happ ih =>
    obtain ⟨hdev, hlen⟩ := apply_frame happ
    rw [subscribed, hdev]
    rcases hlen with hlen | hlen | hlen
    · rw [hlen]; exact ih
    · exact .inl hlen
    · exact .inr hlen

structure Fits (f : Farm) : Prop where
  width : f.nonceSegmentWidth < 64
  fit : f.subscribed * 2 ^ f.nonceSegmentWidth ≤ 2 ^ 64

/-- The segments of an allowed job fit, whether its extranonce or the farm sets the width. -/
theorem chooseSegments_fit {f : Farm} (hf : Fits f) (hcount : f.miners.length = 0 ∨ f.miners.length = f.subscribed)
    {wp : WorkPackage} {random : UInt64} (ha : Allowed f (.setWork wp random)) :
    ∃ start width, f.chooseSegments wp = some (start, width) ∧ width < 64 ∧ f.subscribed * 2 ^ width ≤ 2 ^ 64 := by
  obtain ⟨hn, hex⟩ := ha
  unfold chooseSegments
  split
  · rename_i he
    obtain ⟨w, hw, -, hw64, hfit⟩ := segmentWidth_spec (UInt16.lt_iff_toNat_lt.mp he) hn (hex he)
    refine ⟨wp.startNonce, w, by rw [hw]; rfl, hw64, ?_⟩
    rw [← hcount.resolve_left hn.ne']
    exact hfit.trans (Nat.pow_le_pow_right (by decide) (by omega))
  · exact ⟨_, _, rfl, hf.width, hf.fit⟩

/-- An allowed `setWork` succeeds, keeps the invariant and hands out segments of its width. -/
theorem setWork_spec {f : Farm} (hf : Fits f) (hcount : f.miners.length = 0 ∨ f.miners.length = f.subscribed)
    {wp : WorkPackage} {random : UInt64} (ha : Allowed f (.setWork wp random)) :
    ∃ g start, f.setWork wp random = some (g, packages wp start g.nonceSegmentWidth f.miners.length) ∧ Fits g ∧
      g.subscribed = f.subscribed := by
  have key : ∀ f' : Farm, Fits f' → f'.miners = f.miners → f'.devices = f.devices →
      ∃ g start, f'.distribute wp = some (g, packages wp start g.nonceSegmentWidth f.miners.length) ∧ Fits g ∧
        g.subscribed = f.subscribed := by
    intro f' hf' hm hd
    have hs : f'.subscribed = f.subscribed := by rw [subscribed, hd, subscribed]
    have ha' : Allowed f' (.setWork wp random) := by
      rw [Allowed, hm]
      exact ha
    obtain ⟨start, width, hchoose, hw, hfit⟩ := chooseSegments_fit hf' (by rw [hm, hs]; exact hcount) ha'
    refine ⟨f'.assign wp width (packages wp start width f'.miners.length), start, ?_, ⟨hw, hfit⟩, hs⟩
    rw [distribute, hchoose, ← hm]
    exact if_neg (by omega)
  unfold setWork
  split
  · exact key (f.shuffle random) ⟨hf.width, hf.fit⟩ rfl rfl
  · exact key f hf rfl rfl

/-- A job with an extranonce of `e` digits: the width it is divided by, and the segments. -/
theorem setWork_of_extranonce {f : Farm} {wp : WorkPackage} (random : UInt64) {e : Nat}
    (he : wp.exSizeBytes.toNat = e) (hpos : 0 < e) (hn : 0 < f.miners.length)
    (h : f.miners.length * 16 ^ e ≤ 2 ^ 64) :
    ∃ g, f.setWork wp random = some (g, packages wp wp.startNonce g.nonceSegmentWidth f.miners.length) ∧
      g.nonceSegmentWidth = (2 ^ (64 - 4 * e) / f.miners.length).log2 ∧ g.nonceSegmentWidth < 64 ∧
      f.miners.length * 2 ^ g.nonceSegmentWidth ≤ 2 ^ (64 - 4 * e) := by
  obtain ⟨w, hw, hlog, hw64, hfit⟩ := segmentWidth_spec hpos hn h
  have hex : 0 < wp.exSizeBytes := UInt16.lt_iff_toNat_lt.mpr (by rw [he]; exact hpos)
  have hchoose : f.chooseSegments wp = some (wp.startNonce, w) := by rw [chooseSegments, if_pos hex, he, hw]; rfl
  refine ⟨f.assign wp w (packages wp wp.startNonce w f.miners.length), ?_, hlog, hw64, hfit⟩
  rw [setWork, if_neg (fun h => by simp [h.2] at hex), distribute, hchoose]
  exact if_neg (by omega)

theorem clampWidth_le (exp : Nat) : clampWidth exp ≤ 50 := by
  unfold clampWidth
  grind

theorem setScramblerInfo_fits {f : Farm} (hf : Fits f) (hn : f.subscribed ≤ 2 ^ 14) (nonce : Option UInt64)
    (width : Option Nat) : Fits (f.setScramblerInfo nonce width) := by
  unfold setScramblerInfo
  split
  · exact hf
  unfold setNonceSegmentWidth
  split
  · have hw := clampWidth_le (width.getD f.nonceSegmentWidth)
    refine ⟨by show clampWidth _ < 64; omega, ?_⟩
    calc f.subscribed * 2 ^ clampWidth (width.getD f.nonceSegmentWidth)
        ≤ 2 ^ 14 * 2 ^ 50 := Nat.mul_le_mul hn (Nat.pow_le_pow_right (by decide) hw)
      _ = 2 ^ 64 := by norm_num
  · exact ⟨hf.width, hf.fit⟩

theorem apply_fits {f g : Farm} {op : Op} (hf : Fits f)
    (hcount : f.miners.length = 0 ∨ f.miners.length = f.subscribed) (hn : f.subscribed ≤ 2 ^ 14)
    (ha : Allowed f op) (h : f.apply op = some g) : Fits g := by
  cases op with
  | setWork wp random =>
    obtain ⟨g', start, heq, hg, -⟩ := setWork_spec hf hcount ha
    rw [apply, heq] at h
    cases h
    exact hg
  | setScramblerInfo nonce width => cases h; exact setScramblerInfo_fits hf hn nonce width
  | start =>
    cases h
    unfold start
    repeat' split
    all_goals exact ⟨hf.width, hf.fit⟩
  | stop =>
    cases h
    unfold stop
    split <;> exact ⟨hf.width, hf.fit⟩
  | _ => cases h; exact ⟨hf.width, hf.fit⟩

theorem reach_fits {f : Farm} (h : Reach f) (hn : f.subscribed ≤ 2 ^ 14) : Fits f := by
  induction h with
  | init devices ergodicity random =>
    exact ⟨by norm_num [init], (Nat.mul_le_mul_right _ hn).trans (by norm_num [init])⟩
  | step op hr ha happ ih =>
    rw [subscribed, (apply_frame happ).1] at hn
    exact apply_fits (ih hn) (reach_count hr) hn ha happ

/-- Right after any `setWork`, in a farm of at most `2^14` miners and after any operations,
    the miners' segments are pairwise disjoint. -/
theorem setWork_segments_disjoint {f : Farm} (hr : Reach f) (hn : f.miners.length ≤ 2 ^ 14) (wp : WorkPackage)
    (random : UInt64) (ha : Allowed f (.setWork wp random)) :
    ∃ g given, f.setWork wp random = some (g, given) ∧ given.length = f.miners.length ∧
      given.Pairwise fun a b => Disjoint (segment a.startNonce g.nonceSegmentWidth)
        (segment b.startNonce g.nonceSegmentWidth) := by
  have hcount := (reach_count hr).resolve_left ha.1.ne'
  have hf := reach_fits hr (hcount ▸ hn)
  obtain ⟨g, start, heq, hg, hsub⟩ := setWork_spec hf (reach_count hr) ha
  have hfit := hg.fit
  rw [hsub, ← hcount] at hfit
  refine ⟨_, _, heq, by simp, ?_⟩
  rw [packages, List.pairwise_map]
  refine List.pairwise_lt_range.imp_of_mem ?_
  intro i j hi hj hij
  exact segment_disjoint hg.width hfit (List.mem_range.mp hi) (List.mem_range.mp hj) hij.ne

def afterExtranonce : Farm :=
  let f := (init [.cpu, .none, .cpu] 0 7).start
  f.assign { exSizeBytes := 2, startNonce := 42 } 55 (packages { exSizeBytes := 2, startNonce := 42 } 42 55 2)

theorem afterExtranonce_reach : Reach afterExtranonce := by
  refine .step (.setWork { exSizeBytes := 2, startNonce := 42 } 0)
    (.step .start (.init [.cpu, .none, .cpu] 0 7) trivial rfl) ?_ ?_
  · exact ⟨by decide, fun _ => by decide⟩
  · have hchoose : (init [.cpu, .none, .cpu] 0 7).start.chooseSegments { exSizeBytes := 2, startNonce := 42 } =
        some (42, 55) := by decide
    show ((init [.cpu, .none, .cpu] 0 7).start.distribute { exSizeBytes := 2, startNonce := 42 }).map (·.1) = _
    rw [distribute, hchoose]
    rfl

/-- The width 55 survives into a pool without extranonce, and the segments still fit. -/
theorem setWork_segments_disjoint_after_extranonce :
    Reach afterExtranonce ∧ afterExtranonce.nonceSegmentWidth = 55 ∧
      ∃ g given, afterExtranonce.setWork {} 0 = some (g, given) ∧ given.length = 2 ∧
        given.Pairwise fun a b => Disjoint (segment a.startNonce g.nonceSegmentWidth)
          (segment b.startNonce g.nonceSegmentWidth) :=
  ⟨afterExtranonce_reach, rfl, setWork_segments_disjoint afterExtranonce_reach (by decide) {} 0
    ⟨by decide, fun h => absurd h (by decide)⟩⟩

end Farm
end CoreMiner.EthCore
