/-
  CoreMiner.EthashCpu.DagLoad — the miners load the DAG one after another
  (`Miner.cpp`: `initEpoch`; `CPUMiner.cpp`: `workLoop`; `Miner.h`: `setDagLoadInfo`; `Farm.cpp`:
  `setWork`), in `DAG_LOAD_MODE_SEQUENTIAL`.

  In front of the DAG of a new epoch a miner waits until `s_dagLoadIndex` is its own index, then
  it passes the turn on to the next one, and the last one resets the index. So each round needs
  every miner. A miner that is paused does not get the work that would take it there, one that is
  told to stop leaves without passing the turn on, and one that is through a second time takes
  the index back: the others wait for good (`dag_load_stuck`). If a new epoch comes only when all
  miners are through with the last one and none is paused or stopping, and a miner is paused or
  stopped only when it is through, then each miner that waits has one in front of it that is
  inside `initEpoch` or on its way there (`dag_load_proceeds`).

  A step is one access to what is shared. `search` may leave whenever it likes.
-/

import CoreMiner.EthCore.Farm
import CoreMiner.Lib.Past
import Mathlib.Logic.Function.Basic

namespace CoreMiner.EthashCpu.DagLoad

open DevCore EthCore Lib

inductive Pc where
  | top
  | readWork
  | got (w : WorkPackage)
  | waiting
  | search
  | exited
  /-- In `initEpoch`: `while (s_dagLoadIndex < m_index)`. -/
  | awaitTurn (w : WorkPackage)
  | testStop (w : WorkPackage)
  | load (w : WorkPackage)
  | advance (w : WorkPackage)
  | testLast (w : WorkPackage)
  | reset (w : WorkPackage)
  deriving DecidableEq

/-- The package that a miner is in `initEpoch` for. -/
def Pc.inside : Pc → Option WorkPackage
  | awaitTurn w | testStop w | load w | advance w | testLast w | reset w => some w
  | _ => none

structure Thread where
  miner : Miner
  stopping : Bool := false
  /-- `current` of `workLoop`. -/
  current : WorkPackage := {}
  pc : Pc := .top

structure St where
  count : Nat
  index : Nat := 0
  /-- By the miner's index, below `count`. -/
  threads : Nat → Thread
  /-- The epoch of the farm's work. -/
  epoch : Int := -1
  /-- `Farm::setWork` is in its loop, at this miner. -/
  handing : Option (WorkPackage × Nat) := none

inductive Ev where
  | thread (i : Nat)
  | setWork (w : WorkPackage)
  /-- It hands it to the next miner. -/
  | hand
  | pause (i : Nat) (what : MinerPauseEnum)
  | resume (i : Nat) (what : MinerPauseEnum)
  | stop (i : Nat)

def threadStep (count index : Nat) (t : Thread) : Nat × Thread :=
  match t.pc with
  | .top => (index, { t with pc := if t.stopping then .exited else .readWork })
  | .readWork => (index, { t with pc := .got t.miner.work })
  | .got w =>
    if w.header = .zero 32 then (index, { t with pc := .waiting })
    else if w.algo = "ethash" then
      if t.current.epoch ≠ w.epoch then (index, { t with pc := .awaitTurn w })
      else (index, { t with current := w, pc := .search })
    else (index, { t with pc := .exited })
  | .waiting | .search => (index, { t with pc := .top })
  | .exited => (index, t)
  | .awaitTurn w => if index < t.miner.index then (index, t) else (index, { t with pc := .testStop w })
  -- `initEpoch` returns false, and `workLoop` ends.
  | .testStop w => (index, { t with pc := if t.stopping then .exited else .load w })
  | .load w => (index, { t with pc := .advance w })
  | .advance w => (t.miner.index + 1, { t with pc := .testLast w })
  | .testLast w =>
    if count = index then (index, { t with pc := .reset w }) else (index, { t with current := w, pc := .top })
  | .reset w => (0, { t with current := w, pc := .top })

def St.set (s : St) (i : Nat) (t : Thread) : St := { s with threads := Function.update s.threads i t }

def step (s : St) : Ev → Option St
  | .thread i =>
    if i < s.count then
      some { s.set i (threadStep s.count s.index (s.threads i)).2 with
        index := (threadStep s.count s.index (s.threads i)).1 }
    else none
  | .setWork w =>
    if s.handing = none ∧ w.header ≠ .zero 32 then some { s with epoch := w.epoch, handing := some (w, 0) } else none
  | .hand =>
    match s.handing with
    | none => none
    | some (w, i) =>
      if i < s.count then
        some { s.set i { s.threads i with miner := (s.threads i).miner.setWork w } with handing := some (w, i + 1) }
      else some { s with handing := none }
  | .pause i what =>
    if i < s.count then some (s.set i { s.threads i with miner := (s.threads i).miner.pause what }) else none
  | .resume i what =>
    if i < s.count then some (s.set i { s.threads i with miner := (s.threads i).miner.resume what }) else none
  | .stop i => if i < s.count then some (s.set i { s.threads i with stopping := true }) else none

def init (count : Nat) : St := { count, threads := fun i => { miner := { index := i } } }

/-! ## The property and the condition -/

def Thread.Pending (t : Thread) : Prop :=
  t.miner.work.header ≠ .zero 32 ∧ t.miner.work.algo = "ethash" ∧ t.miner.work.epoch ≠ t.current.epoch ∧
    t.stopping = false ∧ t.pc ≠ .exited

instance (t : Thread) : Decidable t.Pending := inferInstanceAs (Decidable (_ ∧ _))

/-- Each miner that waits for its turn has one in front of it that is inside `initEpoch` or will be. -/
def Proceeds (s : St) : Prop :=
  ∀ i w, i < s.count → (s.threads i).pc = .awaitTurn w → s.index < i →
    ∃ j < i, (s.threads j).pc.inside.isSome = true ∨ (s.threads j).Pending

def Through (s : St) (i : Nat) : Prop := (s.threads i).current.epoch = s.epoch ∧ (s.threads i).pc.inside = none

instance (s : St) (i : Nat) : Decidable (Through s i) := inferInstanceAs (Decidable (_ ∧ _))

/-- A new epoch comes when all miners are through with the last one and none is paused or stopping,
    and a miner is paused or stopped when it is through. -/
def Calm (s : St) : Ev → Prop
  | .setWork w => w.algo = "ethash" ∧ (w.epoch ≠ s.epoch →
      ∀ i < s.count, Through s i ∧ (s.threads i).miner.paused = false ∧ (s.threads i).stopping = false)
  | .pause i _ | .stop i => Through s i
  | _ => True

instance (s : St) : (e : Ev) → Decidable (Calm s e)
  | .setWork _ => inferInstanceAs (Decidable (_ ∧ (_ → _)))
  | .pause i _ => inferInstanceAs (Decidable (Through s i))
  | .stop i => inferInstanceAs (Decidable (Through s i))
  | .thread _ => inferInstanceAs (Decidable True)
  | .hand => inferInstanceAs (Decidable True)
  | .resume _ _ => inferInstanceAs (Decidable True)

/-! ## The invariant -/

def Fit (e : Int) (w : WorkPackage) : Prop := w.header ≠ .zero 32 → w.epoch = e ∧ w.algo = "ethash"

/-- A miner that has passed the turn on. Only when all have is there one that resets the index. -/
structure Ahead (e : Int) (all : Prop) (t : Thread) : Prop where
  work : Fit e t.miner.work
  exits : t.pc = .exited → t.stopping = true
  got : ∀ w, t.pc = .got w → Fit e w
  inside : ∀ w, t.pc.inside = some w → w.epoch = e ∧ (t.pc = .testLast w ∨ t.pc = .reset w ∧ all)
  outside : t.pc.inside = none → t.current.epoch = e

structure Behind (e : Int) (t : Thread) : Prop where
  current : t.current.epoch ≠ e
  stopping : t.stopping = false
  paused : t.miner.paused = false
  runs : t.pc ≠ .exited

structure Given (e : Int) (turn : Prop) (t : Thread) : Prop extends Behind e t where
  header : t.miner.work.header ≠ .zero 32
  work : Fit e t.miner.work
  got : ∀ w, t.pc = .got w → Fit t.current.epoch w ∨ Fit e w
  inside : ∀ w, t.pc.inside = some w → w.epoch = e ∧
    (t.pc = .awaitTurn w ∨ turn ∧ (t.pc = .testStop w ∨ t.pc = .load w ∨ t.pc = .advance w))

structure Left (e : Int) (t : Thread) : Prop extends Behind e t where
  work : Fit t.current.epoch t.miner.work
  got : ∀ w, t.pc = .got w → Fit t.current.epoch w
  inside : t.pc.inside = none

def St.handed (s : St) : Nat := (s.handing.map (·.2)).getD s.count

/-- `k` miners have passed the turn on, and `g` have the work of the epoch. -/
structure Round (s : St) (k g : Nat) : Prop where
  le : k ≤ s.count
  own : ∀ i < s.count, (s.threads i).miner.index = i
  handing : ∀ w i, s.handing = some (w, i) → w.header ≠ .zero 32 ∧ Fit s.epoch w
  turn : k < s.count → s.index = k
  full : k = s.count →
    s.index = 0 ∨ s.index = s.count ∧ ∃ i, i + 1 = s.count ∧ (s.threads i).pc.inside.isSome = true
  ahead : ∀ i < k, Ahead s.epoch (k = s.count) (s.threads i)
  /-- The farm hands out work of the epoch for the first time, or all have it. -/
  mark : g = s.handed ∨ g = s.count
  given : ∀ i, k ≤ i → i < s.count → i < g → Given s.epoch (i = k) (s.threads i)
  left : ∀ i, k ≤ i → i < s.count → g ≤ i → Left s.epoch (s.threads i)

/-! ## A miner's steps -/

section

variable {e : Int} {turn all : Prop} {t : Thread} {count index : Nat} {w : WorkPackage}

theorem threadStep_miner (count index : Nat) (t : Thread) : (threadStep count index t).2.miner = t.miner := by
  unfold threadStep
  repeat' split
  all_goals rfl

theorem threadStep_index (count index : Nat) (hadvance : ∀ w, t.pc ≠ .advance w) (hreset : ∀ w, t.pc ≠ .reset w) :
    (threadStep count index t).1 = index := by
  obtain ⟨miner, stopping, current, pc⟩ := t
  cases pc with
  | advance w => exact absurd rfl (hadvance w)
  | reset w => exact absurd rfl (hreset w)
  | got w =>
    simp only [threadStep]
    repeat' split
    all_goals rfl
  | awaitTurn w =>
    simp only [threadStep]
    split <;> rfl
  | testLast w =>
    simp only [threadStep]
    split <;> rfl
  | _ => rfl

theorem Ahead.step (h : Ahead e all t) (hall : count = index → all) : Ahead e all (threadStep count index t).2 := by
  obtain ⟨miner, stopping, current, pc⟩ := t
  have houter (pc' : Pc) (hp : pc'.inside = none) (hexit : pc' ≠ .exited) (hgot : ∀ w, pc' ≠ .got w)
      (hc : pc.inside = none) : Ahead e all { miner, stopping, current, pc := pc' } :=
    ⟨h.work, fun hx => absurd hx hexit, fun w hw => absurd hw (hgot w), fun w hw => absurd (hp.symm.trans hw) nofun,
      fun _ => h.outside hc⟩
  cases pc with
  | top =>
    cases stopping with
    | true => exact ⟨h.work, fun _ => rfl, nofun, nofun, fun _ => h.outside rfl⟩
    | false => exact houter _ rfl nofun nofun rfl
  | readWork =>
    refine ⟨h.work, nofun, fun w hw => ?_, nofun, fun _ => h.outside rfl⟩
    cases hw
    exact h.work
  | got w =>
    have hfit := h.got w rfl
    have hcurrent := h.outside rfl
    simp only [threadStep]
    split
    · exact houter _ rfl nofun nofun rfl
    · rename_i hheader
      obtain ⟨hepoch, halgo⟩ := hfit hheader
      rw [if_pos halgo, if_neg (by rw [hepoch, not_not]; exact hcurrent)]
      exact ⟨h.work, nofun, nofun, nofun, fun _ => hepoch⟩
  | waiting => exact houter _ rfl nofun nofun rfl
  | search => exact houter _ rfl nofun nofun rfl
  | exited => exact h
  | testLast w =>
    obtain ⟨hepoch, -⟩ := h.inside w rfl
    simp only [threadStep]
    split
    · rename_i hlast
      refine ⟨h.work, nofun, nofun, fun w' hw' => ?_, nofun⟩
      cases hw'
      exact ⟨hepoch, .inr ⟨rfl, hall hlast⟩⟩
    · exact ⟨h.work, nofun, nofun, nofun, fun _ => hepoch⟩
  | reset w => exact ⟨h.work, nofun, nofun, nofun, fun _ => (h.inside w rfl).1⟩
  | awaitTurn w => exact absurd (h.inside w rfl).2 (by simp)
  | testStop w => exact absurd (h.inside w rfl).2 (by simp)
  | load w => exact absurd (h.inside w rfl).2 (by simp)
  | advance w => exact absurd (h.inside w rfl).2 (by simp)

theorem Left.step (h : Left e t) : Left e (threadStep count index t).2 := by
  obtain ⟨miner, stopping, current, pc⟩ := t
  obtain rfl : stopping = false := h.stopping
  have houter (pc' : Pc) (hp : pc'.inside = none) (hexit : pc' ≠ .exited) (hgot : ∀ w, pc' ≠ .got w) :
      Left e { miner, stopping := false, current, pc := pc' } :=
    ⟨⟨h.current, rfl, h.paused, hexit⟩, h.work, fun w hw => absurd hw (hgot w), hp⟩
  cases pc with
  | top => exact houter _ rfl nofun nofun
  | readWork =>
    refine ⟨⟨h.current, rfl, h.paused, nofun⟩, h.work, fun w hw => ?_, rfl⟩
    cases hw
    exact h.work
  | got w =>
    simp only [threadStep]
    split
    · exact houter _ rfl nofun nofun
    · rename_i hheader
      obtain ⟨hepoch, halgo⟩ := h.got w rfl hheader
      rw [if_pos halgo, if_neg (by rw [hepoch, not_not])]
      have hsame : w.epoch = current.epoch := hepoch
      have hwork : Fit w.epoch miner.work := by
        rw [hsame]
        exact h.work
      have hcurrent : w.epoch ≠ e := by
        rw [hsame]
        exact h.current
      exact ⟨⟨hcurrent, rfl, h.paused, nofun⟩, hwork, nofun, rfl⟩
  | waiting => exact houter _ rfl nofun nofun
  | search => exact houter _ rfl nofun nofun
  | exited => exact absurd rfl h.runs
  | _ => exact absurd h.inside nofun

theorem Given.step (h : Given e turn t) (hturn : ¬ index < t.miner.index → turn) (hadvance : ∀ w, t.pc ≠ .advance w) :
    Given e turn (threadStep count index t).2 := by
  obtain ⟨miner, stopping, current, pc⟩ := t
  obtain rfl : stopping = false := h.stopping
  have houter (pc' : Pc) (hp : pc'.inside = none) (hexit : pc' ≠ .exited) (hgot : ∀ w, pc' ≠ .got w) :
      Given e turn { miner, stopping := false, current, pc := pc' } :=
    ⟨⟨h.current, rfl, h.paused, hexit⟩, h.header, h.work, fun w hw => absurd hw (hgot w),
      fun w hw => absurd (hp.symm.trans hw) nofun⟩
  have hinner {w : WorkPackage} (pc' : Pc) (hw : w.epoch = e) (hp : pc'.inside = some w) (hexit : pc' ≠ .exited)
      (hgot : ∀ w, pc' ≠ .got w)
      (hpc : pc' = .awaitTurn w ∨ turn ∧ (pc' = .testStop w ∨ pc' = .load w ∨ pc' = .advance w)) :
      Given e turn { miner, stopping := false, current, pc := pc' } := by
    refine ⟨⟨h.current, rfl, h.paused, hexit⟩, h.header, h.work, fun w hw => absurd hw (hgot w), fun w' hw' => ?_⟩
    obtain rfl := Option.some.inj (hp.symm.trans hw')
    exact ⟨hw, hpc⟩
  cases pc with
  | top => exact houter _ rfl nofun nofun
  | readWork =>
    refine ⟨⟨h.current, rfl, h.paused, nofun⟩, h.header, h.work, fun w hw => ?_, nofun⟩
    cases hw
    exact .inr h.work
  | got w =>
    simp only [threadStep]
    split
    · exact houter _ rfl nofun nofun
    · rename_i hheader
      have halgo : w.algo = "ethash" := by
        rcases h.got w rfl with hfit | hfit
        · exact (hfit hheader).2
        · exact (hfit hheader).2
      rw [if_pos halgo]
      split
      · rename_i hother
        have hepoch : w.epoch = e := by
          rcases h.got w rfl with hfit | hfit
          · exact absurd (hfit hheader).1.symm hother
          · exact (hfit hheader).1
        exact hinner _ hepoch rfl nofun nofun (.inl rfl)
      · rename_i hsame
        have hcurrent : w.epoch ≠ e := by
          rw [← not_not.mp hsame]
          exact h.current
        exact ⟨⟨hcurrent, rfl, h.paused, nofun⟩, h.header, h.work, nofun, nofun⟩
  | waiting => exact houter _ rfl nofun nofun
  | search => exact houter _ rfl nofun nofun
  | exited => exact absurd rfl h.runs
  | awaitTurn w =>
    simp only [threadStep]
    split
    · exact h
    · exact hinner _ (h.inside w rfl).1 rfl nofun nofun (.inr ⟨hturn ‹_›, .inl rfl⟩)
  | testStop w =>
    obtain ⟨hepoch, hpc | ⟨hmine, -⟩⟩ := h.inside w rfl
    · cases hpc
    · exact hinner _ hepoch rfl nofun nofun (.inr ⟨hmine, .inr (.inl rfl)⟩)
  | load w =>
    obtain ⟨hepoch, hpc | ⟨hmine, -⟩⟩ := h.inside w rfl
    · cases hpc
    · exact hinner _ hepoch rfl nofun nofun (.inr ⟨hmine, .inr (.inr rfl)⟩)
  | advance w => exact absurd rfl (hadvance w)
  | testLast w => exact absurd (h.inside w rfl).2 (by simp)
  | reset w => exact absurd (h.inside w rfl).2 (by simp)

theorem Given.advances (h : Given e turn t) (all : Prop) (hpc : t.pc = .advance w) :
    turn ∧ Ahead e all { t with pc := .testLast w } := by
  obtain ⟨hepoch, hwait | ⟨hmine, -⟩⟩ := h.inside w (by rw [hpc]; rfl)
  · cases hpc.symm.trans hwait
  · refine ⟨hmine, h.work, nofun, nofun, fun w' hw' => ?_, nofun⟩
    cases hw'
    exact ⟨hepoch, .inl rfl⟩

end

/-! ## The events -/

section

variable {s t : St} {k g i : Nat}

/-- A miner that is behind has not got past its turn. -/
theorem Round.behind (h : Round s k g) (hki : k ≤ i) (hi : i < s.count) : Behind s.epoch (s.threads i) := by
  rcases Nat.lt_or_ge i g with hg | hg
  · exact (h.given i hki hi hg).toBehind
  · exact (h.left i hki hi hg).toBehind

theorem Round.given_of_inside (h : Round s k g) (hki : k ≤ i) (hi : i < s.count) {w : WorkPackage}
    (hw : (s.threads i).pc.inside = some w) : i < g := by
  by_contra hg
  cases (h.left i hki hi (Nat.le_of_not_lt hg)).inside.symm.trans hw

theorem Round.replace (h : Round s k g) {u : Thread} {index : Nat} (hown : u.miner.index = i)
    (hturn : k < s.count → index = k)
    (hfull : k = s.count → index = 0 ∨ index = s.index ∧ (i + 1 = s.count → u.pc.inside.isSome = true))
    (hahead : i < k → Ahead s.epoch (k = s.count) u)
    (hgiven : k ≤ i → i < g → Given s.epoch (i = k) u) (hleft : k ≤ i → g ≤ i → Left s.epoch u) :
    Round { s.set i u with index } k g where
  le := h.le
  own j hj := by
    by_cases hji : j = i
    · subst hji
      simpa [St.set] using hown
    · simpa [St.set, hji] using h.own j hj
  handing := h.handing
  turn := hturn
  full hk := by
    rcases hfull hk with hzero | ⟨hsame, hlast⟩
    · exact .inl hzero
    rcases h.full hk with hzero | ⟨hcount, j, hj, hin⟩
    · exact .inl (hsame.trans hzero)
    · refine .inr ⟨hsame.trans hcount, j, hj, ?_⟩
      by_cases hji : j = i
      · subst hji
        simpa [St.set] using hlast hj
      · simpa [St.set, hji] using hin
  ahead j hj := by
    by_cases hji : j = i
    · subst hji
      simpa [St.set] using hahead hj
    · simpa [St.set, hji] using h.ahead j hj
  mark := h.mark
  given j hj hcount hg := by
    by_cases hji : j = i
    · subst hji
      simpa [St.set] using hgiven hj hg
    · simpa [St.set, hji] using h.given j hj hcount hg
  left j hj hcount hg := by
    by_cases hji : j = i
    · subst hji
      simpa [St.set] using hleft hj hg
    · simpa [St.set, hji] using h.left j hj hcount hg

/-- A miner that is behind passes the turn on: it is the next one. -/
theorem Round.advances (h : Round s k g) (hi : i < s.count) {w : WorkPackage} (hki : k ≤ i)
    (hpc : (s.threads i).pc = .advance w) :
    Round { s.set i { s.threads i with pc := .testLast w } with index := i + 1 } (k + 1) g := by
  have hin : (s.threads i).pc.inside = some w := by
    rw [hpc]
    rfl
  have hgiven := h.given i hki hi (h.given_of_inside hki hi hin)
  obtain ⟨rfl, hahead⟩ := hgiven.advances (i + 1 = s.count) hpc
  refine ⟨hi, fun j hj => ?_, h.handing, fun _ => rfl, fun hlast => ?_, fun j hj => ?_, h.mark,
    fun j hj hcount hg => ?_, fun j hj hcount hg => ?_⟩
  · by_cases hji : j = i
    · subst hji
      simpa [St.set] using h.own j hj
    · simpa [St.set, hji] using h.own j hj
  · exact .inr ⟨hlast, i, hlast, by simp [St.set, Pc.inside]⟩
  · by_cases hji : j = i
    · subst hji
      simpa [St.set] using hahead
    · have hold := h.ahead j (by omega)
      simp only [St.set, Function.update_of_ne hji]
      -- Before the last one is through none resets the index.
      refine ⟨hold.work, hold.exits, hold.got, fun w hw => ?_, hold.outside⟩
      obtain ⟨hepoch, htest | ⟨-, hall⟩⟩ := hold.inside w hw
      · exact ⟨hepoch, .inl htest⟩
      · exact absurd hall (by omega)
  · have hji : j ≠ i := by omega
    have hold := h.given j (by omega) hcount hg
    simp only [St.set, Function.update_of_ne hji]
    refine ⟨hold.toBehind, hold.header, hold.work, hold.got, fun w hw => ?_⟩
    obtain ⟨hepoch, hwait | ⟨hmine, -⟩⟩ := hold.inside w hw
    · exact ⟨hepoch, .inl hwait⟩
    · exact absurd hmine (by omega)
  · have hji : j ≠ i := by omega
    simp only [St.set, Function.update_of_ne hji]
    exact h.left j (by omega) hcount hg

/-- A step of a miner that has passed the turn on; the index changes if it resets it. -/
theorem Round.thread_ahead (h : Round s k g) (hik : i < k) :
    Round { s.set i (threadStep s.count s.index (s.threads i)).2 with
      index := (threadStep s.count s.index (s.threads i)).1 } k g := by
  have hi := Nat.lt_of_lt_of_le hik h.le
  have hown : (threadStep s.count s.index (s.threads i)).2.miner.index = i := by rw [threadStep_miner, h.own i hi]
  have hahead := h.ahead i hik
  have hall : s.count = s.index → k = s.count := fun hlast => by
    by_contra hne
    have := h.turn (lt_of_le_of_ne h.le hne)
    omega
  have hstep := hahead.step hall
  have hadvance : ∀ w, (s.threads i).pc ≠ .advance w := fun w hw => by
    have := (hahead.inside w (by rw [hw]; rfl)).2
    simp [hw] at this
  by_cases hreset : ∃ w, (s.threads i).pc = .reset w
  · obtain ⟨w, hw⟩ := hreset
    have hcount : k = s.count := by
      rcases (hahead.inside w (by rw [hw]; rfl)).2 with htest | ⟨-, hcount⟩
      · cases hw.symm.trans htest
      · exact hcount
    have hzero : (threadStep s.count s.index (s.threads i)).1 = 0 := by rw [threadStep, hw]
    exact h.replace hown (fun hlt => by omega) (fun _ => .inl hzero) (fun _ => hstep) (fun _ => by omega)
      fun _ => by omega
  · have hindex := threadStep_index s.count s.index hadvance fun w hw => hreset ⟨w, hw⟩
    refine h.replace hown (fun hlt => hindex.trans (h.turn hlt)) (fun hk => ?_) (fun _ => hstep) (fun _ => by omega)
      fun _ => by omega
    rcases h.full hk with hzero | ⟨hcount, j, hj, hin⟩
    · exact .inl (hindex.trans hzero)
    · refine .inr ⟨hindex, fun hlast => ?_⟩
      -- The last one finds that it is the last one.
      obtain rfl : j = i := by omega
      obtain ⟨w, hw⟩ := Option.isSome_iff_exists.mp hin
      rcases (hahead.inside w hw).2 with htest | ⟨hreset', -⟩
      · simp only [threadStep, htest, if_pos hcount.symm]
        rfl
      · exact absurd ⟨w, hreset'⟩ hreset

/-- A step of a miner that has not, and does not now. -/
theorem Round.thread_behind (h : Round s k g) (hki : k ≤ i) (hi : i < s.count)
    (hadvance : ∀ w, (s.threads i).pc ≠ .advance w) :
    Round { s.set i (threadStep s.count s.index (s.threads i)).2 with
      index := (threadStep s.count s.index (s.threads i)).1 } k g := by
  have hown := h.own i hi
  have hown' : (threadStep s.count s.index (s.threads i)).2.miner.index = i := by rw [threadStep_miner, hown]
  have hturn := h.turn (Nat.lt_of_le_of_lt hki hi)
  have hreset : ∀ w, (s.threads i).pc ≠ .reset w := fun w hw => by
    have hin : (s.threads i).pc.inside = some w := by
      rw [hw]
      rfl
    have := ((h.given i hki hi (h.given_of_inside hki hi hin)).inside w hin).2
    simp [hw] at this
  have hindex := threadStep_index s.count s.index hadvance hreset
  have hmine : ¬ s.index < (s.threads i).miner.index → i = k := fun hge => by omega
  exact h.replace hown' (fun _ => hindex.trans hturn) (fun hk => by omega)
    (fun hik => absurd hki (Nat.not_le.mpr hik)) (fun _ hg => (h.given i hki hi hg).step hmine hadvance)
    fun _ hg => (h.left i hki hi hg).step

theorem thread_round (h : Round s k g) (hi : i < s.count) :
    ∃ k', Round { s.set i (threadStep s.count s.index (s.threads i)).2 with
      index := (threadStep s.count s.index (s.threads i)).1 } k' g := by
  by_cases hik : i < k
  · exact ⟨k, h.thread_ahead hik⟩
  · have hki := Nat.le_of_not_lt hik
    by_cases hadvance : ∃ w, (s.threads i).pc = .advance w
    · obtain ⟨w, hw⟩ := hadvance
      have hstep : threadStep s.count s.index (s.threads i) = (i + 1, { s.threads i with pc := .testLast w }) := by
        rw [threadStep, hw]
        simp only [h.own i hi]
      rw [hstep]
      exact ⟨k + 1, h.advances hi hki hw⟩
    · exact ⟨k, h.thread_behind hki hi fun w hw => hadvance ⟨w, hw⟩⟩

theorem Round.through (h : Round s k g) (hi : i < s.count) (ht : Through s i) : i < k := by
  by_contra hik
  exact (h.behind (Nat.le_of_not_lt hik) hi).current ht.1

theorem Round.adjust (h : Round s k g) {u : Thread} (hown : u.miner.index = i) (hpc : u.pc = (s.threads i).pc)
    (hahead : i < k → Ahead s.epoch (k = s.count) u) (hgiven : k ≤ i → i < g → Given s.epoch (i = k) u)
    (hleft : k ≤ i → g ≤ i → Left s.epoch u) : Round (s.set i u) k g := by
  refine h.replace hown h.turn (fun hk => ?_) hahead hgiven hleft
  rcases h.full hk with hzero | ⟨-, j, hj, hin⟩
  · exact .inl hzero
  · refine .inr ⟨rfl, fun hlast => ?_⟩
    obtain rfl : j = i := by omega
    rw [hpc]
    exact hin

theorem setWork_index (m : Miner) (w : WorkPackage) : (m.setWork w).index = m.index := by
  unfold Miner.setWork
  split <;> rfl

theorem Ahead.setWork {e : Int} {all : Prop} {u : Thread} {w : WorkPackage} (h : Ahead e all u) (hw : Fit e w) :
    Ahead e all { u with miner := u.miner.setWork w } := by
  refine ⟨?_, h.exits, h.got, h.inside, h.outside⟩
  show Fit e (u.miner.setWork w).work
  unfold Miner.setWork
  split
  · exact fun hheader => absurd rfl hheader
  · exact hw

theorem setWork_unpaused {m : Miner} (h : m.paused = false) (w : WorkPackage) : m.setWork w = { m with work := w } := by
  rw [Miner.setWork, h]
  rfl

theorem Given.setWork {e : Int} {turn : Prop} {u : Thread} {w : WorkPackage} (h : Given e turn u)
    (hheader : w.header ≠ .zero 32) (hw : Fit e w) : Given e turn { u with miner := u.miner.setWork w } := by
  rw [setWork_unpaused h.paused]
  exact ⟨⟨h.current, h.stopping, h.paused, h.runs⟩, hheader, hw, h.got, h.inside⟩

theorem Left.setWork {e : Int} {turn : Prop} {u : Thread} {w : WorkPackage} (h : Left e u)
    (hheader : w.header ≠ .zero 32) (hw : Fit e w) : Given e turn { u with miner := u.miner.setWork w } := by
  rw [setWork_unpaused h.paused]
  exact ⟨⟨h.current, h.stopping, h.paused, h.runs⟩, hheader, hw, fun w hw => .inl (h.got w hw),
    fun w hw => absurd (h.inside.symm.trans hw) nofun⟩

theorem Round.hands (h : Round s k g) {w : WorkPackage} (hh : s.handing = some (w, i)) (hi : i < s.count) :
    Round { s.set i { s.threads i with miner := (s.threads i).miner.setWork w } with handing := some (w, i + 1) } k
      (if g = i then i + 1 else g) := by
  obtain ⟨hheader, hfit⟩ := h.handing w i hh
  have hhanded : s.handed = i := by rw [St.handed, hh]; rfl
  have hmark : g = i ∨ g = s.count := hhanded ▸ h.mark
  refine ⟨h.le, fun j hj => ?_, fun w' i' hw' => ?_, h.turn, fun hk => ?_, fun j hj => ?_, ?_, fun j hj hcount hg => ?_,
    fun j hj hcount hg => ?_⟩
  · by_cases hji : j = i
    · subst hji
      simpa [St.set, setWork_index] using h.own j hj
    · simpa [St.set, hji] using h.own j hj
  · cases hw'
    exact ⟨hheader, hfit⟩
  · rcases h.full hk with hzero | ⟨hcount, j, hj, hin⟩
    · exact .inl hzero
    · refine .inr ⟨hcount, j, hj, ?_⟩
      by_cases hji : j = i
      · subst hji
        simpa [St.set] using hin
      · simpa [St.set, hji] using hin
  · by_cases hji : j = i
    · subst hji
      simpa [St.set] using (h.ahead j hj).setWork hfit
    · simpa [St.set, hji] using h.ahead j hj
  · split
    · exact .inl rfl
    · exact .inr (hmark.resolve_left ‹_›)
  · by_cases hji : j = i
    · subst hji
      have hgiven : Given s.epoch (j = k) { s.threads j with miner := (s.threads j).miner.setWork w } := by
        rcases Nat.lt_or_ge j g with hold | hold
        · exact (h.given j hj hcount hold).setWork hheader hfit
        · exact (h.left j hj hcount hold).setWork hheader hfit
      simpa [St.set] using hgiven
    · have hold : j < g := by
        split at hg <;> omega
      simpa [St.set, hji] using h.given j hj hcount hold
  · have hcount' : j < s.count := hcount
    have hji : j ≠ i := by
      split at hg <;> omega
    have hold : g ≤ j := by
      split at hg <;> omega
    simpa [St.set, hji] using h.left j hj hcount hold

theorem Round.handed_all (h : Round s k g) {w : WorkPackage} (hh : s.handing = some (w, i)) (hi : ¬ i < s.count) :
    Round { s with handing := none } k s.count := by
  have hhanded : s.handed = i := by rw [St.handed, hh]; rfl
  have hall : s.count ≤ g := by
    rcases h.mark with hg | hg <;> omega
  exact ⟨h.le, h.own, nofun, h.turn, h.full, h.ahead, .inr rfl,
    fun j hj hcount _ => h.given j hj hcount (Nat.lt_of_lt_of_le hcount hall),
    fun j _ hcount hg => absurd hg (Nat.not_le.mpr hcount)⟩

theorem Round.setWork_same (h : Round s k g) (hfree : s.handing = none) {w : WorkPackage}
    (hheader : w.header ≠ .zero 32) (halgo : w.algo = "ethash") (hepoch : w.epoch = s.epoch) :
    Round { s with epoch := w.epoch, handing := some (w, 0) } k g := by
  have hall : g = s.count := by
    rcases h.mark with hg | hg
    · rw [hg, St.handed, hfree]
      rfl
    · exact hg
  rw [hepoch]
  refine ⟨h.le, h.own, fun w' i hw' => ?_, h.turn, h.full, h.ahead, .inr hall, h.given, h.left⟩
  cases hw'
  exact ⟨hheader, fun _ => ⟨hepoch, halgo⟩⟩

theorem Round.setWork_new (h : Round s k g) {w : WorkPackage} (hheader : w.header ≠ .zero 32)
    (halgo : w.algo = "ethash") (hepoch : w.epoch ≠ s.epoch)
    (hcalm : ∀ i < s.count, Through s i ∧ (s.threads i).miner.paused = false ∧ (s.threads i).stopping = false) :
    Round { s with epoch := w.epoch, handing := some (w, 0) } 0 0 := by
  have hall : k = s.count := by
    by_contra hne
    have hlt := lt_of_le_of_ne h.le hne
    exact absurd (h.through hlt (hcalm k hlt).1) (lt_irrefl k)
  have hzero : s.index = 0 := by
    rcases h.full hall with hzero | ⟨-, j, hj, hin⟩
    · exact hzero
    · rw [(hcalm j (by omega)).1.2] at hin
      cases hin
  refine ⟨Nat.zero_le _, h.own, fun w' i hw' => ?_, fun _ => hzero, fun _ => .inl hzero, nofun, .inl rfl, nofun,
    fun j _ hj _ => ?_⟩
  · cases hw'
    exact ⟨hheader, fun _ => ⟨rfl, halgo⟩⟩
  · obtain ⟨⟨hcurrent, hout⟩, hpaused, hstopping⟩ := hcalm j hj
    have hahead := h.ahead j (hall ▸ hj)
    have hruns : (s.threads j).pc ≠ .exited := fun hx => absurd (hahead.exits hx) (by rw [hstopping]; exact nofun)
    have hother : (s.threads j).current.epoch ≠ w.epoch := by
      rw [hcurrent]
      exact Ne.symm hepoch
    refine ⟨⟨hother, hstopping, hpaused, hruns⟩, ?_, ?_, hout⟩
    · rw [hcurrent]
      exact hahead.work
    · rw [hcurrent]
      exact hahead.got

theorem step_round {e : Ev} (h : Round s k g) (hc : Calm s e) (hstep : step s e = some t) : ∃ k' g', Round t k' g' := by
  cases e with
  | thread i =>
    obtain ⟨hi, ⟨⟩⟩ := Option.ite_none_right_eq_some.mp hstep
    obtain ⟨k', hround⟩ := thread_round h hi
    exact ⟨k', g, hround⟩
  | setWork w =>
    obtain ⟨⟨hfree, hheader⟩, ⟨⟩⟩ := Option.ite_none_right_eq_some.mp hstep
    by_cases hepoch : w.epoch = s.epoch
    · exact ⟨k, g, h.setWork_same hfree hheader hc.1 hepoch⟩
    · exact ⟨0, 0, h.setWork_new hheader hc.1 hepoch (hc.2 hepoch)⟩
  | hand =>
    simp only [step] at hstep
    split at hstep
    · cases hstep
    · rename_i w i hh
      split at hstep
      · cases hstep
        exact ⟨k, _, h.hands hh ‹_›⟩
      · cases hstep
        exact ⟨k, _, h.handed_all hh ‹_›⟩
  | pause i what =>
    obtain ⟨hi, ⟨⟩⟩ := Option.ite_none_right_eq_some.mp hstep
    have hik := h.through hi hc
    have hold := h.ahead i hik
    refine ⟨k, g, h.adjust (h.own i hi) rfl (fun _ => ?_) (fun hki => by omega) fun hki => by omega⟩
    exact ⟨fun hheader => absurd rfl hheader, hold.exits, hold.got, hold.inside, hold.outside⟩
  | resume i what =>
    obtain ⟨hi, ⟨⟩⟩ := Option.ite_none_right_eq_some.mp hstep
    have hpaused (hp : (s.threads i).miner.paused = false) : ((s.threads i).miner.resume what).paused = false := by
      simp only [Miner.paused, Bool.not_eq_false', List.isEmpty_iff] at hp
      simp [Miner.resume, Miner.paused, hp]
    refine ⟨k, g, h.adjust (h.own i hi) rfl (fun hik => ?_) (fun hki hg => ?_) fun hki hg => ?_⟩
    · have hold := h.ahead i hik
      exact ⟨hold.work, hold.exits, hold.got, hold.inside, hold.outside⟩
    · have hold := h.given i hki hi hg
      have hbehind := hold.toBehind
      exact ⟨⟨hbehind.current, hbehind.stopping, hpaused hbehind.paused, hbehind.runs⟩, hold.header, hold.work,
        hold.got, hold.inside⟩
    · have hold := h.left i hki hi hg
      exact ⟨⟨hold.current, hold.stopping, hpaused hold.paused, hold.runs⟩, hold.work, hold.got, hold.inside⟩
  | stop i =>
    obtain ⟨hi, ⟨⟩⟩ := Option.ite_none_right_eq_some.mp hstep
    have hik := h.through hi hc
    have hold := h.ahead i hik
    refine ⟨k, g, h.adjust (h.own i hi) rfl (fun _ => ?_) (fun hki => by omega) fun hki => by omega⟩
    exact ⟨hold.work, fun _ => rfl, hold.got, hold.inside, hold.outside⟩

/-! ## Runs -/

theorem init_round (count : Nat) : Round (init count) count count where
  le := Nat.le_refl _
  own _ _ := rfl
  handing := nofun
  turn hlt := absurd hlt (lt_irrefl _)
  full _ := .inl rfl
  ahead _ _ := ⟨fun hheader => absurd rfl hheader, nofun, nofun, nofun, fun _ => rfl⟩
  mark := .inr rfl
  given _ hge hlt := absurd hlt (Nat.not_lt.mpr hge)
  left _ hge hlt := absurd hlt (Nat.not_lt.mpr hge)

/-- The next one in turn is inside `initEpoch`, or on its way there. -/
theorem Round.proceeds (h : Round s k g) : Proceeds s := by
  intro i w hi hpc hwaits
  have hin : (s.threads i).pc.inside = some w := by
    rw [hpc]
    rfl
  have hki : k ≤ i := by
    by_contra hik
    have := ((h.ahead i (Nat.lt_of_not_le hik)).inside w hin).2
    simp [hpc] at this
  have hlt : k < s.count := Nat.lt_of_le_of_lt hki hi
  have hturn := h.turn hlt
  -- The one that waits has the work, so those in front of it have.
  have hg := h.given_of_inside hki hi hin
  have hnext := h.given k (Nat.le_refl k) hlt (Nat.lt_of_le_of_lt hki hg)
  refine ⟨k, by omega, ?_⟩
  by_cases hout : (s.threads k).pc.inside = none
  · have hfit := hnext.work hnext.header
    refine .inr ⟨hnext.header, hfit.2, fun heq => ?_, hnext.stopping, hnext.runs⟩
    exact hnext.current (heq.symm.trans hfit.1)
  · exact .inl (Option.isSome_iff_ne_none.mpr hout)

end

/-- In every calm run each miner that waits for its turn has one in front of it that is inside
    `initEpoch` or will be. -/
theorem dag_load_proceeds {count : Nat} {past : List (St × Ev)} {s : St}
    (h : Traced step (· = init count) Calm past s) : Proceeds s := by
  have hround : ∃ k g, Round s k g := by
    refine h.invariant (J := fun s => ∃ k g, Round s k g) ?_ ?_
    · rintro _ rfl
      exact ⟨count, count, init_round count⟩
    · rintro s e t ⟨k, g, hs⟩ hc hstep
      exact step_round hs hc hstep
  obtain ⟨k, g, hs⟩ := hround
  exact hs.proceeds

/-! ## Rounds of two miners -/

def job (e : Int) : WorkPackage := { header := ⟨List.replicate 32 1, rfl⟩, epoch := e }

def handOut (e : Int) : List Ev := [.setWork (job e), .hand, .hand, .hand]

def goes (i n : Nat) : List Ev := List.replicate n (.thread i)

/-- The second miner waits, and the first one will come. -/
theorem second_miner_waits : ∃ past s, Traced step (· = init 2) Calm past s ∧
    (s.threads 1).pc = .awaitTurn (job 0) ∧ s.index = 0 ∧ Proceeds s := by
  obtain ⟨past, s, hrun, hwaits, hindex⟩ := traced_of_record step (I := (· = init 2)) (fun s e => decide (Calm s e)) rfl
    (handOut 0 ++ goes 1 3) (P := fun _ s => (s.threads 1).pc = .awaitTurn (job 0) ∧ s.index = 0) (by decide +kernel)
  have hrun' := hrun.mono fun _ _ he => of_decide_eq_true he
  exact ⟨past, s, hrun', hwaits, hindex, dag_load_proceeds hrun'⟩

/-- The second miner waits for the first, which is not coming. -/
def Stuck (s : St) (e : Int) : Prop :=
  1 < s.count ∧ (s.threads 1).pc = .awaitTurn (job e) ∧ s.index = 0 ∧ (s.threads 0).pc.inside = none ∧
    ¬ (s.threads 0).Pending

instance (s : St) (e : Int) : Decidable (Stuck s e) := inferInstanceAs (Decidable (_ ∧ _))

theorem Stuck.not_proceeds {s : St} {e : Int} (h : Stuck s e) : ¬ Proceeds s := by
  obtain ⟨hcount, hwaits, hindex, hout, hnot⟩ := h
  intro hp
  obtain ⟨j, hj, hserved⟩ := hp 1 (job e) hcount hwaits (by omega)
  obtain rfl : j = 0 := by omega
  rcases hserved with hin | hpending
  · rw [hout] at hin
    cases hin
  · exact hnot hpending

theorem stuck_after {e : Int} (C : Ev → Bool) (es : List Ev)
    (h : (record step (fun _ => C) (init 2) es).any (fun r => Stuck r.2 e) = true) :
    ∃ past s, Traced step (· = init 2) (fun _ e => C e = true) past s ∧ ¬ Proceeds s := by
  obtain ⟨past, s, hrun, hstuck⟩ := traced_of_record step (I := (· = init 2)) (fun _ => C) rfl es
    (P := fun _ s => Stuck s e) h
  exact ⟨past, s, hrun, hstuck.not_proceeds⟩

def Ev.pauses : Ev → Bool
  | .pause _ _ => true
  | _ => false

def Ev.stops : Ev → Bool
  | .stop _ => true
  | _ => false

def Ev.oneEpoch : Ev → Bool
  | .setWork w => w.epoch = 0
  | _ => true

/-- The first miner is paused when the work comes; it is told to stop when it has the turn; or,
    without any of this, it is through with a second epoch before the other one is with the first,
    which then resets the index. -/
theorem dag_load_stuck :
    (∃ past s, Traced step (· = init 2) (fun _ e => (!e.stops && e.oneEpoch) = true) past s ∧ ¬ Proceeds s) ∧
    (∃ past s, Traced step (· = init 2) (fun _ e => (!e.pauses && e.oneEpoch) = true) past s ∧ ¬ Proceeds s) ∧
    ∃ past s, Traced step (· = init 2) (fun _ e => (!e.pauses && !e.stops) = true) past s ∧ ¬ Proceeds s :=
  ⟨stuck_after (e := 0) (fun e => !e.stops && e.oneEpoch) ([.pause 0 .apiRequest] ++ handOut 0 ++ goes 1 3)
      (by decide +kernel),
    stuck_after (e := 0) (fun e => !e.pauses && e.oneEpoch) (handOut 0 ++ goes 0 4 ++ [.stop 0] ++ goes 0 1 ++ goes 1 3)
      (by decide +kernel),
    stuck_after (e := 1) (fun e => !e.pauses && !e.stops)
      (handOut 0 ++ goes 0 8 ++ goes 1 3 ++ handOut 1 ++ goes 0 8 ++ goes 1 9) (by decide +kernel)⟩

end CoreMiner.EthashCpu.DagLoad
