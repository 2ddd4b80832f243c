/-
  CoreMiner.EthCore.Telemetry — the farm's account of its miners
  (`Farm.cpp`: `start`, `stop`, `restart`, `accountSolution`; `Miner.h`: `TelemetryType`;
  `PoolManager.cpp`: the handler of `onMinerRestart`).

  `start` pushes an entry for each miner it creates, and `stop` drops the miners and keeps
  the entries. `accountSolution` counts a verdict twice, for the farm and for the miner: the
  farm's counter is the sum of the miners' counters, modulo `2^32`, as long as the index is
  one of an entry (`counted_balanced`). The times of the last solution and the hash rates are
  left out.

  So the entries are those of the running miners if no miner is created while entries of
  earlier ones are left (`telemetry_mirrors`); a farm that is restarted lists each of its
  miners twice (`restart_doubles`).
-/

import CoreMiner.EthCore.Farm
import CoreMiner.Lib.Past
import CoreMiner.Lib.Prog
import Mathlib.Data.UInt

namespace CoreMiner.EthCore

open DevCore Lib Prog

inductive SolutionAccountingEnum where
  | accepted
  | rejected
  | wasted
  | failed
  deriving DecidableEq, Repr

structure SolutionAccount where
  accepted : UInt32 := 0
  rejected : UInt32 := 0
  wasted : UInt32 := 0
  failed : UInt32 := 0
  deriving DecidableEq, Repr

namespace SolutionAccount

def counter (x : SolutionAccount) : SolutionAccountingEnum → UInt32
  | .accepted => x.accepted
  | .rejected => x.rejected
  | .wasted => x.wasted
  | .failed => x.failed

def count (x : SolutionAccount) : SolutionAccountingEnum → SolutionAccount
  | .accepted => { x with accepted := x.accepted + 1 }
  | .rejected => { x with rejected := x.rejected + 1 }
  | .wasted => { x with wasted := x.wasted + 1 }
  | .failed => { x with failed := x.failed + 1 }

theorem counter_count (x : SolutionAccount) (a b : SolutionAccountingEnum) :
    (x.count a).counter b = x.counter b + (if b = a then 1 else 0) := by
  cases a <;> cases b <;> simp [count, counter]

end SolutionAccount

structure Telemetry where
  farm : SolutionAccount := {}
  miners : List SolutionAccount := []
  deriving DecidableEq, Repr

/-- `Farm::accountSolution`; `at` throws after the farm's own counter is up. -/
def accountSolution (minerIdx : Nat) (accounting : SolutionAccountingEnum) : Prog Telemetry StdException Unit := do
  modify fun t => { t with farm := t.farm.count accounting }
  let t ← get
  if minerIdx < t.miners.length then
    modify fun t => { t with miners := t.miners.modify minerIdx (·.count accounting) }
  else throw .outOfRange

namespace Telemetry

def Balanced (t : Telemetry) : Prop := ∀ a, t.farm.counter a = (t.miners.map (·.counter a)).sum

def counted (t : Telemetry) (minerIdx : Nat) (accounting : SolutionAccountingEnum) : Telemetry where
  farm := t.farm.count accounting
  miners := t.miners.modify minerIdx (·.count accounting)

end Telemetry

theorem sum_modify_count (l : List SolutionAccount) (i : Nat) (hi : i < l.length) (a b : SolutionAccountingEnum) :
    ((l.modify i (·.count a)).map (·.counter b)).sum = (l.map (·.counter b)).sum + (if b = a then 1 else 0) := by
  induction l generalizing i with
  | nil => cases hi
  | cons x l ih =>
    cases i with
    | zero =>
      simp only [List.modify_zero_cons, List.map_cons, List.sum_cons, SolutionAccount.counter_count]
      rw [UInt32.add_assoc, UInt32.add_comm (if b = a then 1 else 0), UInt32.add_assoc]
    | succ i =>
      simp only [List.modify_succ_cons, List.map_cons, List.sum_cons]
      rw [ih i (Nat.lt_of_succ_lt_succ hi), UInt32.add_assoc]

theorem counted_balanced {t : Telemetry} (h : t.Balanced) {i : Nat} (hi : i < t.miners.length)
    (a : SolutionAccountingEnum) : (t.counted i a).Balanced := by
  intro b
  rw [Telemetry.counted, SolutionAccount.counter_count, sum_modify_count _ _ hi, h b]

/-- A verdict on a miner that has an entry is counted, and nothing is thrown. -/
theorem exec_accountSolution {t : Telemetry} {i : Nat} (hi : i < t.miners.length) (a : SolutionAccountingEnum) :
    (accountSolution i a).exec t = (.ok (), t.counted i a) := by
  show (if i < t.miners.length then _ else _ : Prog Telemetry StdException Unit).exec _ = _
  rw [if_pos hi]
  rfl

/-- A verdict on any other is counted for the farm only. -/
theorem exec_accountSolution_outside {t : Telemetry} {i : Nat} (hi : ¬ i < t.miners.length)
    (a : SolutionAccountingEnum) :
    (accountSolution i a).exec t = (.error .outOfRange, { t with farm := t.farm.count a }) := by
  show (if i < t.miners.length then _ else _ : Prog Telemetry StdException Unit).exec _ = _
  rw [if_neg hi]
  rfl

/-! ## The farm with its telemetry -/

structure MeteredFarm extends Farm where
  telemetry : Telemetry := {}

namespace MeteredFarm

def creates (f : MeteredFarm) : Bool := !f.isMining && f.miners.isEmpty

def start (f : MeteredFarm) : MeteredFarm where
  toFarm := f.toFarm.start
  telemetry :=
    if f.creates then { f.telemetry with miners := f.telemetry.miners ++ List.replicate f.subscribed {} }
    else f.telemetry

def stop (f : MeteredFarm) : MeteredFarm := { f with toFarm := f.toFarm.stop }

def restart (f : MeteredFarm) : MeteredFarm := (if f.isMining then f.stop else f).start

inductive Op where
  | farm (op : Farm.Op)
  | restart
  | accountSolution (minerIdx : Nat) (accounting : SolutionAccountingEnum)

def apply (f : MeteredFarm) : Op → Option MeteredFarm
  | .farm .start => some f.start
  | .farm .stop => some f.stop
  | .farm op => (f.toFarm.apply op).map fun toFarm => { f with toFarm }
  | .restart => some f.restart
  | .accountSolution minerIdx accounting =>
    match (EthCore.accountSolution minerIdx accounting).exec f.telemetry with
    | (.ok _, telemetry) => some { f with telemetry }
    | (.error _, _) => none

def init (devices : List DeviceSubscriptionTypeEnum) (ergodicity : Nat) (random : UInt64) : MeteredFarm :=
  { toFarm := .init devices ergodicity random }

/-- There is an entry for each miner, in the order of their indices. -/
structure Mirrors (f : MeteredFarm) : Prop where
  entries : f.telemetry.miners.length = f.miners.length
  indices : f.miners.map (·.index) = List.range f.miners.length

/-- Miners are created only while there is no entry. -/
def startsAfresh (f : MeteredFarm) : Op → Bool
  | .farm .start => !f.creates || f.telemetry.miners.isEmpty
  | .restart => f.telemetry.miners.isEmpty
  | _ => true

/-! ## Starting and stopping -/

/-- A farm that does not mine has no miners; they come in the order of their indices. -/
structure Sound (f : MeteredFarm) : Prop where
  idle : f.isMining = false → f.miners = []
  indices : f.miners.map (·.index) = List.range f.miners.length

theorem start_mining (f : MeteredFarm) : f.start.isMining = true := by
  show f.toFarm.start.isMining = true
  unfold Farm.start
  split
  · assumption
  · split <;> rfl

theorem start_sound {f : MeteredFarm} (h : f.Sound) : f.start.Sound := by
  refine ⟨fun hm => absurd (f.start_mining.symm.trans hm) nofun, ?_⟩
  show f.toFarm.start.miners.map (·.index) = List.range f.toFarm.start.miners.length
  unfold Farm.start
  split
  · exact h.indices
  · split
    · simp only [List.map_map, List.length_map, List.length_range]
      exact List.map_id _
    · exact h.indices

theorem stop_sound {f : MeteredFarm} (h : f.Sound) : f.stop.Sound := by
  show Sound { f with toFarm := f.toFarm.stop }
  unfold Farm.stop
  split
  · exact ⟨fun _ => rfl, rfl⟩
  · exact h

theorem stop_idle (f : MeteredFarm) : f.stop.isMining = false := by
  show f.toFarm.stop.isMining = false
  unfold Farm.stop
  split
  · rfl
  · exact Bool.eq_false_of_not_eq_true ‹_›

theorem start_entries {f : MeteredFarm} (h : f.Sound) (hm : f.isMining = false) (he : f.telemetry.miners = []) :
    f.start.telemetry.miners.length = f.start.miners.length := by
  have hcreates : f.creates = true := by simp [creates, hm, h.idle hm]
  have hminers : f.start.miners.length = f.subscribed := by
    show f.toFarm.start.miners.length = _
    rw [Farm.start, if_neg (by simp [hm]), if_pos (by simp [h.idle hm])]
    simp
  rw [hminers, start, if_pos hcreates]
  simp [he]

/-! ## The other operations -/

theorem setWork_index (m : Miner) (wp : WorkPackage) : (m.setWork wp).index = m.index := by
  unfold Miner.setWork
  split <;> rfl

theorem distribute_indices {f g : Farm} {wp : WorkPackage} {given : List WorkPackage}
    (h : f.distribute wp = some (g, given)) :
    g.miners.map (·.index) = f.miners.map (·.index) ∧ g.isMining = f.isMining := by
  unfold Farm.distribute at h
  split at h
  · cases h
  split at h
  · cases h
  · cases h
    refine ⟨?_, rfl⟩
    have hindex (m : Miner) (wp' : WorkPackage) :
        ((if f.currentWp.epoch = wp.epoch then m else { m with epoch := wp.epoch }).setWork wp').index = m.index := by
      rw [setWork_index]
      split <;> rfl
    simp only [Farm.assign, List.map_zipWith, hindex]
    exact List.ext_getElem (by simp) fun i _ _ => by simp

theorem apply_indices {f g : Farm} {op : Farm.Op} (h : f.apply op = some g) (hop : op ≠ .start ∧ op ≠ .stop) :
    g.miners.map (·.index) = f.miners.map (·.index) ∧ g.isMining = f.isMining := by
  cases op with
  | setWork wp random =>
    obtain ⟨⟨g', given⟩, hset, rfl⟩ := Option.map_eq_some_iff.mp h
    have hsame := distribute_indices hset
    split at hsame <;> exact hsame
  | setScramblerInfo nonce width =>
    cases h
    simp only [Farm.setScramblerInfo, Farm.setNonceSegmentWidth]
    repeat' split
    all_goals exact ⟨rfl, rfl⟩
  | start => exact absurd rfl hop.1
  | stop => exact absurd rfl hop.2
  | pause =>
    cases h
    exact ⟨by simp [Farm.pause, Miner.pause, Function.comp_def], rfl⟩
  | resume =>
    cases h
    exact ⟨by simp [Farm.resume, Miner.resume, Function.comp_def], rfl⟩
  | _ =>
    cases h
    exact ⟨rfl, rfl⟩

/-! ## What is added -/

def Grows (f g : MeteredFarm) : Prop :=
  ∃ n, g.telemetry = { f.telemetry with miners := f.telemetry.miners ++ List.replicate n {} } ∧
    ∀ m ∈ g.miners, m.index < n ∨ ∃ m' ∈ f.miners, m'.index = m.index

theorem grows_of_same {f g : MeteredFarm} (ht : g.telemetry = f.telemetry)
    (hm : ∀ m ∈ g.miners, ∃ m' ∈ f.miners, m'.index = m.index) : f.Grows g :=
  ⟨0, by simp [ht], fun m h => .inr (hm m h)⟩

theorem start_grows (f : MeteredFarm) : f.Grows f.start := by
  cases hcreates : f.creates with
  | true =>
    refine ⟨f.subscribed, by rw [start, if_pos hcreates], fun m hm => .inl ?_⟩
    simp only [creates, Bool.and_eq_true, Bool.not_eq_true'] at hcreates
    have hminers : f.start.miners = (List.range f.subscribed).map fun i => { index := i } := by
      show f.toFarm.start.miners = _
      rw [Farm.start, if_neg (by simp [hcreates.1]), if_pos hcreates.2]
    rw [hminers] at hm
    obtain ⟨i, hi, rfl⟩ := List.mem_map.mp hm
    exact List.mem_range.mp hi
  | false =>
    refine grows_of_same (by simp [start, hcreates]) fun m hm => ⟨m, ?_, rfl⟩
    have hminers : f.start.miners = f.miners := by
      show f.toFarm.start.miners = _
      unfold Farm.start
      split
      · rfl
      · rw [if_neg (by simp_all [creates])]
    exact hminers ▸ hm

theorem stop_grows (f : MeteredFarm) : f.Grows f.stop := by
  refine grows_of_same rfl fun m hm => ⟨m, ?_, rfl⟩
  have hminers : f.stop.miners = [] ∨ f.stop.miners = f.miners := by
    show f.toFarm.stop.miners = [] ∨ f.toFarm.stop.miners = _
    unfold Farm.stop
    split
    · exact .inl rfl
    · exact .inr rfl
  rcases hminers with hnone | hsame
  · simp [hnone] at hm
  · exact hsame ▸ hm

theorem apply_grows {f g : MeteredFarm} {op : Farm.Op} (h : f.apply (.farm op) = some g) : f.Grows g := by
  by_cases hop : op ≠ .start ∧ op ≠ .stop
  · have hmap : (f.toFarm.apply op).map (fun toFarm => { f with toFarm }) = some g := by
      cases op <;> first | exact h | simp at hop
    obtain ⟨toFarm, happ, rfl⟩ := Option.map_eq_some_iff.mp hmap
    refine grows_of_same rfl fun m hm => ?_
    have hindex : m.index ∈ f.miners.map (·.index) := (apply_indices happ hop).1 ▸ List.mem_map_of_mem hm
    exact List.mem_map.mp hindex
  · cases op with
    | start =>
      cases h
      exact start_grows f
    | stop =>
      cases h
      exact stop_grows f
    | _ => simp at hop

theorem grows_trans {f g k : MeteredFarm} (h : f.Grows g) (h' : g.Grows k) : f.Grows k := by
  obtain ⟨m, ht, hm⟩ := h
  obtain ⟨n, ht', hn⟩ := h'
  refine ⟨m + n, ?_, fun x hx => ?_⟩
  · rw [ht', ht]
    simp [List.replicate_append_replicate]
  · rcases hn x hx with hlt | ⟨y, hy, hxy⟩
    · exact .inl (by omega)
    · rcases hm y hy with hlt | ⟨z, hz, hyz⟩
      · exact .inl (by omega)
      · exact .inr ⟨z, hz, hyz.trans hxy⟩

theorem restart_grows (f : MeteredFarm) : f.Grows f.restart := by
  unfold restart
  split
  · exact grows_trans f.stop_grows (start_grows _)
  · exact start_grows f

theorem sum_replicate_zero (n : Nat) : (List.replicate n (0 : UInt32)).sum = 0 := by
  induction n with
  | zero => rfl
  | succ n ih => rw [List.replicate_succ, List.sum_cons, ih, UInt32.add_zero]

theorem Grows.balanced {f g : MeteredFarm} (h : f.Grows g) (hf : f.telemetry.Balanced) : g.telemetry.Balanced := by
  obtain ⟨n, ht, -⟩ := h
  intro a
  have hzero : SolutionAccount.counter {} a = 0 := by cases a <;> rfl
  have hempty : ((List.replicate n ({} : SolutionAccount)).map (·.counter a)).sum = 0 := by
    rw [List.map_replicate, hzero, sum_replicate_zero]
  rw [ht]
  show f.telemetry.farm.counter a = _
  rw [hf a, List.map_append, List.sum_append, hempty, UInt32.add_zero]

/-! ## Starting afresh -/

structure Kept (f : MeteredFarm) : Prop extends Sound f where
  entries : f.isMining = true → f.telemetry.miners.length = f.miners.length

theorem kept_of_same {f g : MeteredFarm} (h : f.Kept) (hm : g.miners.map (·.index) = f.miners.map (·.index))
    (hmining : g.isMining = f.isMining) (he : g.telemetry.miners.length = f.telemetry.miners.length) : g.Kept := by
  have hlen : g.miners.length = f.miners.length := by simpa using congrArg List.length hm
  refine ⟨⟨fun hi => ?_, ?_⟩, fun hi => ?_⟩
  · rw [← List.length_eq_zero_iff, hlen, h.idle (hmining ▸ hi), List.length_nil]
  · rw [hm, hlen]
    exact h.indices
  · rw [he, hlen]
    exact h.entries (hmining ▸ hi)

theorem start_kept {f : MeteredFarm} (h : f.Kept) (hC : f.startsAfresh (.farm .start) = true) : f.start.Kept := by
  refine ⟨start_sound h.toSound, fun _ => ?_⟩
  cases hm : f.isMining with
  | true =>
    have hsame : f.start = f := by
      simp only [start, Farm.start, creates, hm, if_true, Bool.not_true, Bool.false_and, Bool.false_eq_true, if_false]
    rw [hsame]
    exact h.entries hm
  | false =>
    have hcreates : f.creates = true := by simp [creates, hm, h.idle hm]
    exact start_entries h.toSound hm (by simpa [startsAfresh, hcreates] using hC)

theorem stop_kept {f : MeteredFarm} (h : f.Sound) : f.stop.Kept :=
  ⟨stop_sound h, fun hm => absurd (hm.symm.trans f.stop_idle) nofun⟩

theorem restart_kept {f : MeteredFarm} (h : f.Kept) (hC : f.startsAfresh .restart = true) : f.restart.Kept := by
  have he : f.telemetry.miners = [] := by simpa [startsAfresh] using hC
  unfold restart
  split
  · exact start_kept (stop_kept h.toSound) (by simp [startsAfresh, stop, he])
  · exact start_kept h (by simp [startsAfresh, he])

theorem apply_kept {f g : MeteredFarm} {op : Op} (h : f.Kept) (hC : f.startsAfresh op = true)
    (hg : f.apply op = some g) : g.Kept := by
  cases op with
  | farm op =>
    by_cases hop : op ≠ .start ∧ op ≠ .stop
    · have hmap : (f.toFarm.apply op).map (fun toFarm => { f with toFarm }) = some g := by
        cases op <;> first | exact hg | simp at hop
      obtain ⟨toFarm, happ, rfl⟩ := Option.map_eq_some_iff.mp hmap
      obtain ⟨hm, hmining⟩ := apply_indices happ hop
      exact kept_of_same h hm hmining rfl
    · cases op with
      | start =>
        cases hg
        exact start_kept h hC
      | stop =>
        cases hg
        exact stop_kept h.toSound
      | _ => simp at hop
  | restart =>
    cases hg
    exact restart_kept h hC
  | accountSolution i a =>
    by_cases hi : i < f.telemetry.miners.length
    · rw [apply, exec_accountSolution hi] at hg
      cases hg
      exact kept_of_same h rfl rfl (by simp [Telemetry.counted])
    · rw [apply, exec_accountSolution_outside hi] at hg
      cases hg

/-- The telemetry lists each running miner once, in every run in which miners are created
    only while there is no entry of an earlier one. -/
theorem telemetry_mirrors {past : List (MeteredFarm × Op)} {f : MeteredFarm}
    (h : Traced apply (fun f => ∃ devices ergodicity random, f = init devices ergodicity random)
      (fun f op => f.startsAfresh op = true) past f) (hm : f.isMining = true) : f.Mirrors := by
  have hkept : f.Kept := by
    refine h.invariant ?_ fun f op g ih hC hg => apply_kept ih hC hg
    rintro f ⟨devices, ergodicity, random, rfl⟩
    exact ⟨⟨fun _ => rfl, rfl⟩, fun hm => nomatch hm⟩
  exact ⟨hkept.entries hm, hkept.indices⟩

/-- A farm of one miner that is started. -/
theorem started_farm_mirrors : ∃ past f,
    Traced apply (fun f => ∃ devices ergodicity random, f = init devices ergodicity random)
      (fun f op => f.startsAfresh op = true) past f ∧ (f.isMining = true ∧ f.miners.length = 1) ∧ f.Mirrors := by
  obtain ⟨past, f, hrun, hf⟩ := traced_of_record apply
    (I := fun f => ∃ devices ergodicity random, f = init devices ergodicity random) startsAfresh
    ⟨[.cpu], 0, 0, rfl⟩ [.farm .start, .farm .pause] (P := fun _ f => f.isMining = true ∧ f.miners.length = 1)
    (by decide +kernel)
  exact ⟨past, f, hrun, hf, telemetry_mirrors hrun hf.1⟩

/-- A farm that is restarted has two entries for its miner. -/
theorem restart_doubles : ∃ past f,
    Traced apply (fun f => ∃ devices ergodicity random, f = init devices ergodicity random)
      (fun _ _ => true = true) past f ∧ f.isMining = true ∧ ¬ f.Mirrors := by
  obtain ⟨past, f, hrun, hm, hdoubled⟩ := traced_of_record apply
    (I := fun f => ∃ devices ergodicity random, f = init devices ergodicity random) (fun _ _ => true)
    ⟨[.cpu], 0, 0, rfl⟩ [.farm .start, .restart]
    (P := fun _ f => f.isMining = true ∧ f.telemetry.miners.length = 2 ∧ f.miners.length = 1) (by decide +kernel)
  refine ⟨past, f, hrun, hm, fun hmirrors => ?_⟩
  have := hmirrors.entries
  omega

end MeteredFarm

end CoreMiner.EthCore
