/-
  CoreMiner.EthashCpu.Dataset — the RandomY dataset (`CPUMiner.cpp`: `getRandomYDataset`).

  The first call allocates the dataset and has its items initialised, by as many threads as the
  host has: each takes the same number of items and the last one the remainder too. These shares
  tile the items, also with more threads than items (`shares_tile`), and no sum of the loop wraps,
  so that its ranges are the shares (`startThreads_shares`).

  The index of the loop is an `int`, and it is incremented once more behind the last thread. From
  `2^31` threads on that overflows, which is undefined (`forInt_overflows`). So the items are
  covered as long as there are fewer (`dataset_covered_iff`).
-/

import CoreMiner.Lib.Tiles
import Mathlib.Algebra.Group.Nat.Defs

namespace CoreMiner.EthashCpu

open Lib

/-! ## Loops with an index of type `int` -/

section

variable {σ : Type}

/-- `for (int i = …; i < n; ++i)`, from the index `i` on, with what the body makes of the variables.
    To increment the largest `int` is undefined. -/
def forInt (n : Nat) (body : Nat → σ → σ) (i : Nat) (s : σ) : Option σ :=
  if i < n then if i = 2 ^ 31 - 1 then none else forInt n body (i + 1) (body i s) else some s
termination_by n - i

variable {n : Nat} {body : Nat → σ → σ}

/-- The rule of invariants: as long as the index does not overflow the loop ends, with what every
    turn keeps. -/
theorem forInt_rule (hn : n < 2 ^ 31) (I : Nat → σ → Prop) (step : ∀ i s, i < n → I i s → I (i + 1) (body i s))
    {i : Nat} {s : σ} (hi : i ≤ n) (h : I i s) : ∃ t, forInt n body i s = some t ∧ I n t := by
  induction hk : n - i generalizing i s with
  | zero =>
    obtain rfl : i = n := by omega
    rw [forInt, if_neg (by omega)]
    exact ⟨s, rfl, h⟩
  | succ k ih =>
    have hlt : i < n := by omega
    rw [forInt, if_pos hlt, if_neg (by omega)]
    exact ih hlt (step i s hlt h) (by omega)

theorem forInt_overflows (hn : 2 ^ 31 ≤ n) {i : Nat} (hi : i < 2 ^ 31) (s : σ) : forInt n body i s = none := by
  induction hk : 2 ^ 31 - 1 - i generalizing i s with
  | zero => rw [forInt, if_pos (by omega), if_pos (by omega)]
  | succ k ih =>
    rw [forInt, if_pos (by omega), if_neg (by omega)]
    exact ih (by omega) _ (by omega)

end

/-! ## The function -/

structure Randomx where
  allocCache : Bool := true
  allocDataset : Bool := true
  datasetItemCount : UInt32
  hardwareConcurrency : UInt32

structure InitDataset where
  startItem : UInt32
  count : UInt32
  deriving DecidableEq, Repr

structure Starting where
  startItem : UInt32 := 0
  threads : List InitDataset := []

def startThread (initThreadCount perThread remainder : UInt32) (i : Nat) (s : Starting) : Starting :=
  let count := perThread + (if i = (initThreadCount - 1).toNat then remainder else 0)
  { startItem := s.startItem + count, threads := s.threads ++ [⟨s.startItem, count⟩] }

/-- `getRandomYDataset`: whether the static pointer is set behind it (it is returned), and the calls
    of `randomx_init_dataset`. All of them have returned before it is: one thread makes the call
    itself, several are joined in the order they were started. -/
def getRandomYDataset (R : Randomx) (dataset : Bool) : Option (Bool × List InitDataset) :=
  if dataset then some (true, [])
  else if !R.allocCache then some (false, [])
  else if !R.allocDataset then some (false, [])
  else
    let initThreadCount := R.hardwareConcurrency
    if 1 < initThreadCount then do
      let perThread := R.datasetItemCount / initThreadCount
      let remainder := R.datasetItemCount % initThreadCount
      let s ← forInt initThreadCount.toNat (startThread initThreadCount perThread remainder) 0 {}
      let joined ← forInt s.threads.length (fun i joined => joined ++ s.threads[i]?.toList) 0 []
      return (true, joined)
    else some (true, [⟨0, R.datasetItemCount⟩])

/-! ## The ranges, in unbounded numbers -/

/-- The items `M` in shares for `T` threads, the last one with the remainder. -/
def share (M T i : Nat) : Nat × Nat := (i * (M / T), M / T + if i + 1 = T then M % T else 0)

def shares (M T : Nat) : List (Nat × Nat) := if 1 < T then (List.range T).map (share M T) else [(0, M)]

/-- Where the shares of the first `k` threads end. -/
def shared (M T k : Nat) : Nat := if k < T then k * (M / T) else M

theorem shared_succ (M : Nat) {T k : Nat} (h : k < T) : shared M T k + (share M T k).2 = shared M T (k + 1) := by
  unfold shared share
  by_cases hlast : k + 1 = T
  · subst hlast
    have hM := Nat.div_add_mod M (k + 1)
    have hq : (k + 1) * (M / (k + 1)) = k * (M / (k + 1)) + M / (k + 1) := Nat.succ_mul _ _
    simp only [Nat.lt_succ_self, if_true, Nat.lt_irrefl, if_false]
    omega
  · have hnext : k + 1 < T := by omega
    rw [if_pos h, if_neg hlast, if_pos hnext, Nat.add_zero, Nat.succ_mul]

theorem share_eq (M : Nat) {T k : Nat} (h : k < T) : share M T k = (shared M T k, (share M T k).2) := by
  rw [shared, if_pos h, share]

theorem shared_tiles (M : Nat) {T : Nat} (hT : 0 < T) {k : Nat} (h : k ≤ T) :
    Tiles (shared M T k) 0 ((List.range k).map (share M T)) := by
  induction k with
  | zero =>
    rw [shared, if_pos hT, Nat.zero_mul]
    exact .done
  | succ k ih =>
    have hk : k < T := h
    rw [List.range_succ, List.map_append, List.map_singleton, share_eq M hk, ← shared_succ M hk]
    exact (ih (by omega)).snoc _

theorem shares_tile (M T : Nat) : Tiles M 0 (shares M T) := by
  unfold shares
  split
  · have h := shared_tiles M (T := T) (by omega) (Nat.le_refl T)
    rwa [shared, if_neg (Nat.lt_irrefl T)] at h
  · have h := Tiles.range (a := 0) (b := M) M (by simpa using Tiles.done)
    exact h

theorem shared_le (M T k : Nat) : shared M T k ≤ M := by
  unfold shared
  split
  · calc k * (M / T) ≤ T * (M / T) := Nat.mul_le_mul_right _ (by omega)
      _ ≤ M := Nat.mul_div_le M T
  · exact Nat.le_refl M

/-! ## The ranges, in 32 bits -/

def InitDataset.range (c : InitDataset) : Nat × Nat := (c.startItem.toNat, c.count.toNat)

section

variable {M T : UInt32}

/-- A turn adds the share of its thread, and no sum wraps. -/
theorem startThread_share {i : Nat} (hi : i < T.toNat) {s : Starting}
    (hs : s.startItem.toNat = shared M.toNat T.toNat i) :
    (startThread T (M / T) (M % T) i s).startItem.toNat = shared M.toNat T.toNat (i + 1) ∧
      (startThread T (M / T) (M % T) i s).threads.map InitDataset.range =
        s.threads.map InitDataset.range ++ [share M.toNat T.toNat i] := by
  have hT : (T - 1).toNat = T.toNat - 1 := UInt32.toNat_sub_of_le _ _ (by
    rw [UInt32.le_iff_toNat_le]
    exact Nat.lt_of_le_of_lt (Nat.zero_le i) hi)
  have hlast : i = (T - 1).toNat ↔ i + 1 = T.toNat := by omega
  have hend := shared_succ M.toNat hi
  have hM := M.toNat_lt
  have hle := shared_le M.toNat T.toNat (i + 1)
  have hcount : (M / T + if i = (T - 1).toNat then M % T else 0).toNat = (share M.toNat T.toNat i).2 := by
    have hsum : ((if i = (T - 1).toNat then M % T else 0 : UInt32)).toNat =
        if i + 1 = T.toNat then M.toNat % T.toNat else 0 := by
      simp only [hlast]
      split <;> simp
    have hlt : (share M.toNat T.toNat i).2 < 2 ^ 32 := by omega
    rw [UInt32.toNat_add, hsum, UInt32.toNat_div]
    exact Nat.mod_eq_of_lt hlt
  constructor
  · rw [← hend, ← hs, ← hcount]
    refine (UInt32.toNat_add _ _).trans (Nat.mod_eq_of_lt ?_)
    rw [hcount, hs, hend]
    omega
  · rw [share_eq M.toNat hi, ← hs, ← hcount, startThread, List.map_append]
    rfl

/-- With the turns that an `int` can count, the loop starts a thread for each share. -/
theorem startThreads_shares (hT : 1 < T.toNat) (h : T.toNat < 2 ^ 31) :
    ∃ s, forInt T.toNat (startThread T (M / T) (M % T)) 0 {} = some s ∧
      s.threads.map InitDataset.range = shares M.toNat T.toNat := by
  obtain ⟨s, hs, -, hthreads⟩ := forInt_rule h
    (fun i (s : Starting) => s.startItem.toNat = shared M.toNat T.toNat i ∧
      s.threads.map InitDataset.range = (List.range i).map (share M.toNat T.toNat))
    (fun i s hi hkept => by
      obtain ⟨hstart, hthreads⟩ := startThread_share hi hkept.1
      refine ⟨hstart, ?_⟩
      rw [hthreads, hkept.2, List.range_succ, List.map_append, List.map_singleton])
    (Nat.zero_le _) (s := {}) ⟨by rw [shared, if_pos (by omega), Nat.zero_mul]; rfl, rfl⟩
  exact ⟨s, hs, by rw [hthreads, shares, if_pos hT]⟩

theorem join_all {α : Type} (threads : List α) (h : threads.length < 2 ^ 31) :
    forInt threads.length (fun i joined => joined ++ threads[i]?.toList) 0 [] = some threads := by
  obtain ⟨joined, hjoined, rfl⟩ : ∃ joined, forInt threads.length (fun i joined => joined ++ threads[i]?.toList) 0 [] =
      some joined ∧ joined = threads.take threads.length :=
    forInt_rule h (fun i joined => joined = threads.take i)
      (fun i joined _ htake => by rw [htake, List.take_add_one]) (Nat.zero_le _) rfl
  rw [hjoined, List.take_length]

theorem getRandomYDataset_shares (h : T.toNat < 2 ^ 31) :
    ∃ calls, getRandomYDataset { datasetItemCount := M, hardwareConcurrency := T } false = some (true, calls) ∧
      calls.map InitDataset.range = shares M.toNat T.toNat := by
  by_cases hT : 1 < T.toNat
  · obtain ⟨s, hs, hthreads⟩ := startThreads_shares hT h (M := M)
    have hsize : s.threads.length = T.toNat := by
      have hlength := congrArg List.length hthreads
      rwa [shares, if_pos hT, List.length_map, List.length_map, List.length_range] at hlength
    have hjoin := join_all s.threads (by omega)
    refine ⟨s.threads, ?_, hthreads⟩
    simp [getRandomYDataset, UInt32.lt_iff_toNat_lt, hT, hs, hjoin]
  · refine ⟨[⟨0, M⟩], ?_, ?_⟩
    · simp [getRandomYDataset, UInt32.lt_iff_toNat_lt, hT]
    · simp [shares, hT, InitDataset.range]

theorem getRandomYDataset_overflows (h : 2 ^ 31 ≤ T.toNat) :
    getRandomYDataset { datasetItemCount := M, hardwareConcurrency := T } false = none := by
  have hT : 1 < T.toNat := by omega
  simp [getRandomYDataset, UInt32.lt_iff_toNat_lt, hT, forInt_overflows h]

end

/-! ## Every item once -/

/-- The calls initialise each of the items `0, …, M - 1` once. -/
structure CoveredOnce (M T : UInt32) (calls : List InitDataset) : Prop where
  first : ∀ c ∈ calls.head?, c.startItem = 0
  contiguous : calls.IsChain fun c d => c.startItem.toNat + c.count.toNat = d.startItem.toNat
  disjoint : calls.Pairwise fun c d => Disjoint (points c.range) (points d.range)
  union : ⋃ c ∈ calls, points c.range = Set.Iio M.toNat
  /-- No range ends beyond the numbers of 32 bits. -/
  fits : ∀ c ∈ calls, c.startItem.toNat + c.count.toNat < 2 ^ 32
  /-- No sum wraps: the ranges are those of the loop in unbounded numbers. -/
  unbounded : calls.map InitDataset.range = shares M.toNat T.toNat

theorem coveredOnce_of_shares {M T : UInt32} {calls : List InitDataset}
    (h : calls.map InitDataset.range = shares M.toNat T.toNat) : CoveredOnce M T calls := by
  have htiles : Tiles M.toNat 0 (calls.map InitDataset.range) := h ▸ shares_tile M.toNat T.toNat
  have hM := M.toNat_lt
  refine ⟨fun c hc => ?_, ?_, ?_, ?_, fun c hc => ?_, h⟩
  · have hfirst := htiles.head c.range (by rw [List.head?_map, Option.mem_def.mp hc]; rfl)
    exact UInt32.toNat_inj.mp hfirst
  · exact (List.isChain_map _).mp htiles.isChain
  · have hdisjoint := htiles.disjoint
    rwa [List.pairwise_map] at hdisjoint
  · have hunion := htiles.union
    simp only [List.mem_map, Set.iUnion_exists, Set.biUnion_and', Set.iUnion_iUnion_eq_right] at hunion
    rw [hunion]
    ext x
    simp
  · have hend := htiles.mem_le c.range (List.mem_map_of_mem hc)
    exact Nat.lt_of_le_of_lt hend hM

/-- The dataset's items are initialised once each, for every number of items, exactly if there are
    fewer than `2^31` threads; more threads than items, one thread or none are no exception. -/
theorem dataset_covered_iff (M T : UInt32) :
    (∃ calls, getRandomYDataset { datasetItemCount := M, hardwareConcurrency := T } false = some (true, calls) ∧
      CoveredOnce M T calls) ↔ T.toNat < 2 ^ 31 := by
  constructor
  · rintro ⟨calls, hcalls, -⟩
    by_contra hT
    rw [getRandomYDataset_overflows (by omega)] at hcalls
    cases hcalls
  · intro hT
    obtain ⟨calls, hcalls, hranges⟩ := getRandomYDataset_shares hT
    exact ⟨calls, hcalls, coveredOnce_of_shares hranges⟩

/-- With `2^31` threads the index of the loop overflows behind the last one. -/
theorem dataset_index_overflows :
    ¬ ∃ calls, getRandomYDataset { datasetItemCount := 34078719, hardwareConcurrency := 2147483648 } false =
      some (true, calls) ∧ CoveredOnce 34078719 2147483648 calls := by
  rintro ⟨calls, hcalls, -⟩
  rw [getRandomYDataset_overflows (by decide)] at hcalls
  cases hcalls

end CoreMiner.EthashCpu
