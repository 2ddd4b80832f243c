/-
  CoreMiner.EthashCpu.Switching — how a CPU miner is told of new work
  (`Miner.cpp`: `setWork`, `pause`, `work`; `CPUMiner.cpp`: `kick_miner`, `search`, `workLoop`).

  `m_work` and `m_new_work` are written one after the other, and the miner tests and clears the
  flag in two steps of its own. A step here is one access to what is shared; any number of calls
  of `setWork` and `pause` can be under way, whatever locks they take, so no interleaving is left
  out. A package that the miner works on is the current one, or the flag is set, or some call has
  still to set it (`Inv`): a call that writes `m_work` is such a call from then on, and the miner
  clears the flag only where it goes on to read `m_work`. So once a call has returned the miner
  hashes one more block at most before it reads `m_work` again (`superseded_work_abandoned`).
-/

import CoreMiner.EthCore.Farm
import CoreMiner.Lib.Past

namespace CoreMiner.EthashCpu.Switching

open DevCore EthCore Lib

inductive Setter where
  /-- `setWork`: looks whether the miner is paused. -/
  | testPaused (w : WorkPackage)
  | write (w : WorkPackage) (paused : Bool)
  | setFlag (what : MinerPauseEnum)
  | void
  /-- `kick_miner`, in which all of them end. -/
  | kick
  deriving DecidableEq

inductive Pc where
  /-- Not in `workLoop`. -/
  | exited
  | top
  | readWork
  | got (w : WorkPackage)
  /-- Waits for a signal, for three seconds at most. -/
  | waiting
  | initEpoch (w : WorkPackage)
  /-- In `search`: tests `m_new_work`. -/
  | testNewWork (w : WorkPackage)
  | clearNewWork
  | testStop (w : WorkPackage)
  | hashBlock (w : WorkPackage)
  deriving DecidableEq

def Pc.package : Pc → Option WorkPackage
  | got w | initEpoch w | testNewWork w | testStop w | hashBlock w => some w
  | _ => none

structure St where
  /-- `m_work` and the pause flags. -/
  miner : Miner
  newWork : Bool := false
  shouldStop : Bool := true
  setters : List Setter := []
  pc : Pc := .exited
  /-- `current` of `workLoop`. -/
  current : WorkPackage := {}
  deriving DecidableEq

inductive Ev where
  /-- The miner goes on; `ok` is what `initEpoch` returns, if it does. -/
  | miner (ok : Bool)
  /-- The worker's state changes. -/
  | shouldStop (b : Bool)
  /-- The worker calls `workLoop`; `ok` is what `initDevice` returns. -/
  | workLoop (ok : Bool)
  | setWork (w : WorkPackage)
  | pause (what : MinerPauseEnum)
  | resume (what : MinerPauseEnum)
  /-- `Farm::stop` kicks without any work. -/
  | kick
  | setter (i : Nat)

/-- What a call writes, and where it goes; `none` when it returns. -/
def setterStep (s : St) : Setter → St × Option Setter
  | .testPaused w => (s, some (.write w s.miner.paused))
  | .write w paused =>
    ({ s with miner := { s.miner with work := if paused then { s.miner.work with header := .zero 32 } else w } },
      some .kick)
  | .setFlag what => ({ s with miner := { s.miner with pauseFlags := s.miner.pauseFlags.insert what } }, some .void)
  | .void => ({ s with miner := { s.miner with work := { s.miner.work with header := .zero 32 } } }, some .kick)
  | .kick => ({ s with newWork := true }, none)

/-- `vm`: `m_vm` is not null. -/
def minerStep (vm : Bool) (s : St) (ok : Bool) : St :=
  match s.pc with
  | .exited => s
  | .top => { s with pc := if s.shouldStop then .exited else .readWork }
  | .readWork => { s with pc := .got s.miner.work }
  | .got w =>
    if w.header = .zero 32 then { s with pc := .waiting }
    else if w.algo = "ethash" then
      if s.current.epoch ≠ w.epoch then { s with pc := .initEpoch w }
      else { s with current := w, pc := if vm then .testNewWork w else .top }
    else { s with pc := .exited }
  | .waiting => { s with pc := .top }
  | .initEpoch w => if ok then { s with current := w, pc := .top } else { s with pc := .exited }
  | .testNewWork w => { s with pc := if s.newWork then .clearNewWork else .testStop w }
  | .clearNewWork => { s with newWork := false, pc := .top }
  | .testStop w => { s with pc := if s.shouldStop then .top else .hashBlock w }
  | .hashBlock w => { s with pc := .testNewWork w }

def step (vm : Bool) (s : St) : Ev → Option St
  | .miner ok => some (minerStep vm s ok)
  | .shouldStop b => some { s with shouldStop := b }
  | .workLoop ok =>
    if s.pc = .exited then some { s with current := {}, pc := if ok then .top else .exited } else none
  | .setWork w => some { s with setters := s.setters ++ [.testPaused w] }
  | .pause what => some { s with setters := s.setters ++ [.setFlag what] }
  | .resume what => some { s with miner := s.miner.resume what }
  | .kick => some { s with setters := s.setters ++ [.kick] }
  | .setter i =>
    match s.setters[i]? with
    | none => none
    | some k => some { (setterStep s k).1 with
        setters := match (setterStep s k).2 with
          | none => s.setters.eraseIdx i
          | some k' => s.setters.set i k' }

def Fresh (s : St) : Prop := ∃ index, s = { miner := { index } }

variable {vm : Bool} {s t : St} {w : WorkPackage}

/-- Without anything in between a call of `setWork` is the one of the farm's model. -/
theorem setWork_uninterrupted (s : St) (w : WorkPackage) :
    ([.testPaused w, .write w s.miner.paused, .kick].foldl (fun t k => (setterStep t k).1) s) =
      { s with miner := s.miner.setWork w, newWork := true } := by
  cases hp : s.miner.paused <;> simp [setterStep, Miner.setWork, hp]

theorem pause_uninterrupted (s : St) (what : MinerPauseEnum) :
    ([.setFlag what, .void, .kick].foldl (fun t k => (setterStep t k).1) s) =
      { s with miner := s.miner.pause what, newWork := true } := rfl

/-! ## The invariant -/

def Told (s : St) : Prop := s.newWork = true ∨ .kick ∈ s.setters

/-- What the miner has in hand is the current package, unless it is told. -/
structure Inv (s : St) : Prop where
  package : ∀ w, s.pc.package = some w → w ≠ s.miner.work → Told s

/-- What a step of the miner leaves alone, and what it has in hand afterwards: nothing, what it had
    or what it has just read. The flag is cleared only on the way to the top. -/
structure Goes (s t : St) : Prop where
  miner : t.miner = s.miner
  setters : t.setters = s.setters
  package : t.pc.package = none ∨
    t.newWork = s.newWork ∧ (t.pc.package = s.pc.package ∨ t.pc.package = some s.miner.work)

theorem minerStep_goes (s : St) (ok : Bool) : Goes s (minerStep vm s ok) := by
  unfold minerStep
  split
  case h_1 => exact ⟨rfl, rfl, .inr ⟨rfl, .inl rfl⟩⟩
  case h_2 => exact ⟨rfl, rfl, .inl (by dsimp only; split <;> rfl)⟩
  case h_3 => exact ⟨rfl, rfl, .inr ⟨rfl, .inr rfl⟩⟩
  case h_4 w hpc =>
    have hhas : s.pc.package = some w := by rw [hpc]; rfl
    split
    · exact ⟨rfl, rfl, .inl rfl⟩
    split
    · split
      · exact ⟨rfl, rfl, .inr ⟨rfl, .inl hhas.symm⟩⟩
      · cases vm with
        | true => exact ⟨rfl, rfl, .inr ⟨rfl, .inl hhas.symm⟩⟩
        | false => exact ⟨rfl, rfl, .inl rfl⟩
    · exact ⟨rfl, rfl, .inl rfl⟩
  case h_5 => exact ⟨rfl, rfl, .inl rfl⟩
  case h_6 =>
    split
    · exact ⟨rfl, rfl, .inl rfl⟩
    · exact ⟨rfl, rfl, .inl rfl⟩
  case h_7 w hpc =>
    have hhas : s.pc.package = some w := by rw [hpc]; rfl
    refine ⟨rfl, rfl, ?_⟩
    cases s.newWork with
    | true => exact .inl rfl
    | false => exact .inr ⟨rfl, .inl hhas.symm⟩
  case h_8 => exact ⟨rfl, rfl, .inl rfl⟩
  case h_9 w hpc =>
    have hhas : s.pc.package = some w := by rw [hpc]; rfl
    refine ⟨rfl, rfl, ?_⟩
    cases s.shouldStop with
    | true => exact .inl rfl
    | false => exact .inr ⟨rfl, .inl hhas.symm⟩
  case h_10 w hpc =>
    have hhas : s.pc.package = some w := by rw [hpc]; rfl
    exact ⟨rfl, rfl, .inr ⟨rfl, .inl hhas.symm⟩⟩

theorem mem_set_of_ne {α : Type} {l : List α} {i : Nat} {a b c : α} (ha : a ∈ l) (hb : l[i]? = some b) (hne : b ≠ a) :
    a ∈ l.set i c := by
  obtain ⟨j, hj⟩ := List.mem_iff_getElem?.mp ha
  have hij : i ≠ j := by
    rintro rfl
    exact hne (Option.some.inj (hb.symm.trans hj))
  exact List.mem_iff_getElem?.mpr ⟨j, by rw [List.getElem?_set_ne hij, hj]⟩

/-- A call leaves the miner's place alone, does not clear the flag, and tells the miner if it has
    written `m_work`. -/
structure Calls (s t : St) : Prop where
  pc : t.pc = s.pc
  told : s.newWork = true → t.newWork = true
  work : Told t ∨ t.miner.work = s.miner.work ∧ (Told s → Told t)

theorem setter_calls {i : Nat} (h : step vm s (.setter i) = some t) : Calls s t := by
  simp only [step] at h
  split at h
  · cases h
  · rename_i k hk
    cases h
    have hlt := (List.getElem?_eq_some_iff.mp hk).1
    cases k with
    | testPaused w =>
      refine ⟨rfl, id, .inr ⟨rfl, fun hs => hs.imp id fun hm => ?_⟩⟩
      exact mem_set_of_ne hm hk nofun
    | write w paused => exact ⟨rfl, id, .inl (.inr (List.mem_set hlt _))⟩
    | setFlag what =>
      refine ⟨rfl, id, .inr ⟨rfl, fun hs => hs.imp id fun hm => ?_⟩⟩
      exact mem_set_of_ne hm hk nofun
    | void => exact ⟨rfl, id, .inl (.inr (List.mem_set hlt _))⟩
    | kick => exact ⟨rfl, fun _ => rfl, .inl (.inl rfl)⟩

/-! ## Runs -/

theorem Inv.goes (hs : Inv s) (h : Goes s t) : Inv t := by
  refine ⟨fun w hw hne => ?_⟩
  rw [h.miner] at hne
  rcases h.package with hnone | ⟨hflag, hsame | hread⟩
  · cases hnone.symm.trans hw
  · rw [Told, hflag, h.setters]
    exact hs.package w (hsame ▸ hw) hne
  · exact absurd (Option.some.inj (hw.symm.trans hread)) hne

theorem Inv.calls (hs : Inv s) (h : Calls s t) : Inv t := by
  refine ⟨fun w hw hne => ?_⟩
  rcases h.work with htold | ⟨hwork, htold⟩
  · exact htold
  · exact htold (hs.package w (h.pc ▸ hw) (hwork ▸ hne))

theorem Calls.begins (s : St) (k : Setter) : Calls s { s with setters := s.setters ++ [k] } :=
  ⟨rfl, id, .inr ⟨rfl, fun h => h.imp id fun hm => List.mem_append_left _ hm⟩⟩

/-- An event is a step of the miner, one of a call, or the start of `workLoop`. -/
theorem step_cases {e : Ev} (h : step vm s e = some t) :
    (∃ ok, e = .miner ok ∧ t = minerStep vm s ok) ∨
      (∀ ok, e ≠ .miner ok) ∧ (Calls s t ∨ s.pc = .exited ∧ t.pc.package = none) := by
  cases e with
  | miner ok =>
    cases h
    exact .inl ⟨ok, rfl, rfl⟩
  | shouldStop b =>
    cases h
    exact .inr ⟨nofun, .inl ⟨rfl, id, .inr ⟨rfl, id⟩⟩⟩
  | workLoop ok =>
    obtain ⟨hpc, ⟨⟩⟩ := Option.ite_none_right_eq_some.mp h
    cases ok <;> exact .inr ⟨nofun, .inr ⟨hpc, rfl⟩⟩
  | setWork w =>
    cases h
    exact .inr ⟨nofun, .inl (.begins s _)⟩
  | pause what =>
    cases h
    exact .inr ⟨nofun, .inl (.begins s _)⟩
  | resume what =>
    cases h
    exact .inr ⟨nofun, .inl ⟨rfl, id, .inr ⟨rfl, id⟩⟩⟩
  | kick =>
    cases h
    exact .inr ⟨nofun, .inl (.begins s _)⟩
  | setter i => exact .inr ⟨nofun, .inl (setter_calls h)⟩

theorem step_inv {e : Ev} (hs : Inv s) (h : step vm s e = some t) : Inv t := by
  obtain ⟨ok, -, rfl⟩ | ⟨-, hcalls | ⟨-, hnone⟩⟩ := step_cases h
  · exact hs.goes (minerStep_goes s ok)
  · exact hs.calls hcalls
  · exact ⟨fun w hw => absurd (hnone.symm.trans hw) nofun⟩

/-! ## One more block -/

def hashes (w : WorkPackage) (s : St) : Ev → Bool
  | .miner _ => s.pc = .hashBlock w
  | _ => false

/-- How many blocks of the package the miner hashes before it tests the flag. -/
def owed (w : WorkPackage) : Pc → Nat
  | .testStop w' | .hashBlock w' => if w' = w then 1 else 0
  | _ => 0

def Warned (w : WorkPackage) (s : St) : Prop := s.pc.package = some w → s.newWork = true

theorem owed_eq_zero {pc : Pc} (h : pc.package ≠ some w) : owed w pc = 0 := by
  cases pc with
  | testStop w' =>
    have hne : w' ≠ w := fun heq => h (congrArg some heq)
    simp [owed, hne]
  | hashBlock w' =>
    have hne : w' ≠ w := fun heq => h (congrArg some heq)
    simp [owed, hne]
  | _ => rfl

theorem owed_le_one (w : WorkPackage) (pc : Pc) : owed w pc ≤ 1 := by
  unfold owed
  split
  · split <;> omega
  · split <;> omega
  · omega

theorem Warned.calls (hs : Warned w s) (h : Calls s t) : Warned w t := fun hw => h.told (hs (h.pc ▸ hw))

theorem Warned.goes (hs : Warned w s) (hne : s.miner.work ≠ w) (h : Goes s t) : Warned w t := by
  intro hw
  rcases h.package with hnone | ⟨hflag, hsame | hread⟩
  · cases hnone.symm.trans hw
  · rw [hflag]
    exact hs (hsame ▸ hw)
  · exact absurd (Option.some.inj (hread.symm.trans hw)) hne

/-- A step of a miner that is told pays for the block it hashes. -/
theorem minerStep_owed (vm : Bool) (hs : Warned w s) (ok : Bool) :
    (if s.pc = .hashBlock w then 1 else 0) + owed w (minerStep vm s ok).pc ≤ owed w s.pc := by
  rcases hpc : s.pc with _ | _ | _ | w' | _ | w' | w' | _ | w' | w' <;>
    simp only [minerStep, hpc, reduceCtorEq, if_false, Nat.zero_add]
  case exited => exact Nat.le_refl _
  case top => split <;> exact Nat.le_refl _
  case readWork => exact Nat.le_refl _
  case got =>
    split
    · exact Nat.le_refl _
    split
    · split
      · exact Nat.le_refl _
      · dsimp only
        split <;> exact Nat.le_refl _
    · exact Nat.le_refl _
  case waiting => exact Nat.le_refl _
  case initEpoch => split <;> exact Nat.le_refl _
  case testNewWork =>
    split
    · exact Nat.le_refl _
    · rename_i hflag
      have hne : w' ≠ w := by
        rintro rfl
        exact hflag (hs (by rw [hpc]; rfl))
      simp [owed, hne]
  case clearNewWork => exact Nat.le_refl _
  case testStop => split <;> simp [owed]
  case hashBlock =>
    by_cases heq : w' = w
    · simp [owed, heq]
    · simp [owed, heq]

theorem blocks_le {past : List (St × Ev)} (ht : Warned w t)
    (h : Traced (step vm) (· = t) (fun s _ => s.miner.work ≠ w) past s) :
    Warned w s ∧ past.countP (fun x => hashes w x.1 x.2) + owed w s.pc ≤ owed w t.pc := by
  induction h with
  | start hs =>
    subst hs
    exact ⟨ht, by simp⟩
  | @step past s u e _ hne hstep ih =>
    obtain ⟨hwarned, hcount⟩ := ih
    rw [List.countP_cons]
    obtain ⟨ok, rfl, rfl⟩ | ⟨hother, hrest⟩ := step_cases hstep
    · refine ⟨hwarned.goes hne (minerStep_goes s ok), ?_⟩
      have howed := minerStep_owed vm hwarned ok
      have hblock : (if hashes w s (.miner ok) = true then 1 else 0) = if s.pc = .hashBlock w then 1 else 0 := by
        simp [hashes]
      dsimp only
      omega
    · have hblock : hashes w s e = false := by
        cases e with
        | miner ok => exact absurd rfl (hother ok)
        | _ => rfl
      dsimp only
      rw [hblock, if_neg Bool.false_ne_true, Nat.add_zero]
      rcases hrest with hcalls | ⟨-, hnone⟩
      · exact ⟨hwarned.calls hcalls, hcalls.pc ▸ hcount⟩
      · have hfree : owed w u.pc = 0 := owed_eq_zero (by rw [hnone]; exact nofun)
        exact ⟨fun hw => absurd (hnone.symm.trans hw) nofun, by omega⟩

/-- In every run: a miner that hashes a block of a package other than `m_work` is told, or a call is
    between its two writes; no update is lost; and of a package that is not the miner's any more
    when a call returns one more block is hashed at most, unless it is set again. -/
theorem superseded_work_abandoned {past : List (St × Ev)} {s : St}
    (h : Traced (step vm) Fresh (fun _ _ => True) past s) :
    (∀ w, s.pc = .hashBlock w → w ≠ s.miner.work → s.newWork = true ∨ .kick ∈ s.setters) ∧
      (∀ w, s.pc.package = some w → s.newWork = false → .kick ∉ s.setters → w = s.miner.work) ∧
      ∀ i t, s.setters[i]? = some .kick → step vm s (.setter i) = some t →
        ∀ w later u, Traced (step vm) (· = t) (fun s _ => s.miner.work ≠ w) later u →
          later.countP (fun x => hashes w x.1 x.2) ≤ 1 := by
  have hs : Inv s := by
    refine h.invariant ?_ fun s e t hs _ hstep => step_inv hs hstep
    rintro s ⟨index, rfl⟩
    exact ⟨nofun⟩
  refine ⟨fun w hw => hs.package w (by rw [hw]; rfl), fun w hw hflag hsetters => ?_, ?_⟩
  · by_contra hne
    rcases hs.package w hw hne with htold | htold
    · cases hflag.symm.trans htold
    · exact hsetters htold
  · intro i t hi hstep w later u hrun
    have htold : t.newWork = true := by
      simp only [step, hi, setterStep] at hstep
      cases hstep
      rfl
    have hcount := (blocks_le (fun _ => htold) hrun).2
    have howed := owed_le_one w t.pc
    omega

theorem ones_size : (List.replicate 32 (1 : UInt8)).length = 32 := rfl

def jobA : WorkPackage := { header := ⟨List.replicate 32 1, ones_size⟩ }

def jobB : WorkPackage := { header := ⟨List.replicate 32 2, rfl⟩ }

/-- The miner is given the first job and starts; it is in its second search, as the flag was still
    set in the first, when the other job is written. -/
def switching : List Ev :=
  [.setWork jobA, .setter 0, .setter 0, .setter 0, .shouldStop false, .workLoop true] ++
    List.replicate 10 (.miner true) ++ [.setWork jobB, .setter 0, .setter 0]

def switched : St where
  miner := { index := 0, work := jobB }
  shouldStop := false
  pc := .hashBlock jobA
  current := jobA

/-- One more block of the first job, and then one of the other. -/
theorem one_more_block : ∃ past later u,
    Traced (step true) Fresh (fun _ _ => True) past { switched with setters := [.kick] } ∧
      Traced (step true) (· = { switched with newWork := true }) (fun s _ => s.miner.work ≠ jobA) later u ∧
      u.pc = .testNewWork jobB ∧ later.countP (fun x => hashes jobB x.1 x.2) = 1 ∧
      later.countP (fun x => hashes jobA x.1 x.2) = 1 ∧ later.countP (fun x => hashes jobA x.1 x.2) ≤ 1 := by
  obtain ⟨past, s, hrun, rfl⟩ := traced_of_record (step true) (I := Fresh) (fun _ _ => true) ⟨0, rfl⟩ switching
    (P := fun _ s => s = { switched with setters := [.kick] }) (by decide +kernel)
  have hrun' := hrun.mono (D := fun _ _ => True) fun _ _ _ => trivial
  obtain ⟨later, u, hlater, hu⟩ := traced_of_record (step true) (I := (· = { switched with newWork := true }))
    (fun s _ => s.miner.work ≠ jobA) rfl (List.replicate 9 (.miner true))
    (P := fun later u => u.pc = .testNewWork jobB ∧ later.countP (fun x => hashes jobB x.1 x.2) = 1 ∧
      later.countP (fun x => hashes jobA x.1 x.2) = 1) (by decide +kernel)
  have hlater' := hlater.mono fun _ _ he => of_decide_eq_true he
  exact ⟨past, later, u, hrun', hlater', hu.1, hu.2.1, hu.2.2,
    (superseded_work_abandoned hrun').2.2 0 _ rfl rfl jobA later u hlater'⟩

end CoreMiner.EthashCpu.Switching
