/-
  CoreMiner.DevCore.Worker — the life cycle of a worker thread (`Worker.cpp`, `Worker.h`).

  `x_work` serialises the calls of the owner; between two accesses of one of them to `m_state`
  the thread can go on, and `workLoop` returns whenever it likes. A step is one access, of the
  thread or of the call that holds the lock. All accesses to `m_state` are sequentially
  consistent, so the interleavings of these steps are all there is.

  The invariant (`Inv`) says which values of `m_state`, calls and places of the thread go
  together. The delicate one is the window in which the thread has overwritten `Killing` by
  `Stopped` and is about to restore it: the destructor is joining then, and holds the lock. From
  the invariant: once `stopWorking` has returned the thread does not work until it is started
  again, there is never more than one, and it is never parked while it is to be killed
  (`worker_life_cycle`).
-/

import CoreMiner.Lib.Past
import Mathlib.Data.List.Basic

namespace CoreMiner.DevCore.Worker

open Lib

inductive WorkerState where
  | starting
  | started
  | stopping
  | stopped
  | killing
  deriving DecidableEq

inductive Pc where
  /-- `while (m_state != Killing)`. -/
  | loopTest
  /-- The exchange of `Starting` for `Started`. -/
  | setStarted
  | working
  /-- The exchange for `Stopped`. -/
  | setStopped
  /-- Behind it: `ex` is what was there. -/
  | restore (ex : WorkerState)
  /-- `while (m_state == Stopped)`. -/
  | parked
  | exited
  deriving DecidableEq

inductive Call where
  | startWorking
  | triggerStopWorking
  | stopWorking
  | destroy
  deriving DecidableEq

/-- Where the call is that holds `x_work`. -/
inductive Holder where
  | entered (c : Call)
  /-- `Starting` is stored, and the thread is to be made. -/
  | create
  | awaitStarted
  | awaitStopped
  | joining
  | reset
  deriving DecidableEq

structure St where
  state : WorkerState := .starting
  /-- `m_work` is not null. -/
  work : Bool := false
  /-- All that were made, newest first; `m_work` is the first one. -/
  threads : List Pc := []
  holder : Option Holder := none
  deriving DecidableEq

def compareExchange (state expected desired : WorkerState) : WorkerState :=
  if state = expected then desired else state

def threadStep (state : WorkerState) : Pc → WorkerState × Pc
  | .loopTest => (state, if state = .killing then .exited else .setStarted)
  | .setStarted => (compareExchange state .starting .started, .working)
  | .working => (state, .setStopped)
  | .setStopped => (.stopped, .restore state)
  | .restore ex => (if ex = .killing ∨ ex = .starting then ex else state, .parked)
  | .parked => (state, if state = .stopped then .parked else .loopTest)
  | .exited => (state, .exited)

def holderStep (s : St) : Holder → St
  | .entered .startWorking =>
    if s.work then { s with state := compareExchange s.state .stopped .starting, holder := some .awaitStarted }
    else { s with state := .starting, holder := some .create }
  | .create => { s with work := true, threads := .loopTest :: s.threads, holder := some .awaitStarted }
  | .awaitStarted => if s.state = .starting then s else { s with holder := none }
  | .entered .triggerStopWorking =>
    if s.work then { s with state := compareExchange s.state .started .stopping, holder := none }
    else { s with holder := none }
  | .entered .stopWorking =>
    if s.work then { s with state := compareExchange s.state .started .stopping, holder := some .awaitStopped }
    else { s with holder := none }
  | .awaitStopped => if s.state = .stopped then { s with holder := none } else s
  | .entered .destroy =>
    if s.work then { s with state := .killing, holder := some .joining } else { s with holder := none }
  | .joining => if s.threads.head? = some .exited then { s with holder := some .reset } else s
  | .reset => { s with work := false, holder := none }

inductive Ev where
  | thread (i : Nat)
  | holder
  | call (c : Call)
  deriving DecidableEq

def step (s : St) : Ev → Option St
  | .thread i =>
    match s.threads[i]? with
    | none => none
    | some pc => some { s with
        state := (threadStep s.state pc).1
        threads := s.threads.set i (threadStep s.state pc).2 }
  | .holder =>
    match s.holder with
    | none => none
    | some h => some (holderStep s h)
  | .call c => if s.holder = none then some { s with holder := some (.entered c) } else none

abbrev Run (past : List (St × Ev)) (s : St) : Prop := Traced step (· = {}) (fun _ _ => True) past s

variable {s t : St} {state : WorkerState} {holder : Option Holder} {pc : Pc}

/-! ## The invariant -/

def Plain (holder : Option Holder) : Prop :=
  holder ≠ some .create ∧ holder ≠ some .joining ∧ holder ≠ some .reset

def Quiet (state : WorkerState) (holder : Option Holder) : Prop := state = .stopped ∧ Plain holder

def Wakes (state : WorkerState) (holder : Option Holder) : Prop :=
  state = .starting ∧ holder = some .awaitStarted ∨ state = .killing ∧ holder = some .joining

/-- The thread is at work; it may have been told to stop. -/
def Runs (state : WorkerState) (holder : Option Holder) : Prop :=
  (state = .started ∨ state = .stopping) ∧ Plain holder ∨ state = .killing ∧ holder = some .joining

def Fits (state : WorkerState) (holder : Option Holder) : Pc → Prop
  | .loopTest => Wakes state holder
  -- Only a start leads here, and it waits for this step.
  | .setStarted => state = .starting ∧ holder = some .awaitStarted
  | .working | .setStopped => Runs state holder
  | .restore ex =>
    (ex = .started ∨ ex = .stopping) ∧ (Quiet state holder ∨ Wakes state holder) ∨
      ex = .killing ∧ state = .stopped ∧ holder = some .joining
  | .parked => Quiet state holder ∨ Wakes state holder
  | .exited => state = .killing ∧ (holder = some .joining ∨ holder = some .reset)

structure Inv (s : St) : Prop where
  /-- Without a thread: those that were are gone. -/
  absent : s.work = false → (∀ pc ∈ s.threads, pc = .exited) ∧
    (s.holder = none ∨ (∃ c, s.holder = some (.entered c)) ∨ s.holder = some .create)
  create : s.holder = some .create → s.work = false ∧ s.state = .starting
  present : s.work = true →
    ∃ pc rest, s.threads = pc :: rest ∧ (∀ q ∈ rest, q = .exited) ∧ Fits s.state s.holder pc

/-! ## The thread's steps -/

theorem Wakes.quits (h : Wakes state holder) (hk : state = .killing) : holder = some .joining := by
  rcases h with ⟨hs, -⟩ | ⟨-, hj⟩
  · cases hk.symm.trans hs
  · exact hj

theorem Wakes.starts (h : Wakes state holder) (hk : state ≠ .killing) :
    state = .starting ∧ holder = some .awaitStarted := by
  rcases h with h | ⟨hs, -⟩
  · exact h
  · exact absurd hs hk

/-- What the thread does fits with what the holder of the lock is doing. -/
theorem threadStep_fits (h : Fits state holder pc) :
    Fits (threadStep state pc).1 holder (threadStep state pc).2 := by
  cases pc with
  | loopTest =>
    by_cases hk : state = .killing
    · simp only [threadStep, if_pos hk]
      exact ⟨hk, .inl (h.quits hk)⟩
    · simp only [threadStep, if_neg hk]
      exact Wakes.starts h hk
  | setStarted =>
    obtain ⟨rfl, rfl⟩ := h
    exact .inl ⟨.inl rfl, nofun, nofun, nofun⟩
  | working => exact h
  | setStopped =>
    rcases h with ⟨hs, hp⟩ | ⟨hs, hj⟩
    · exact .inl ⟨hs, .inl ⟨rfl, hp⟩⟩
    · exact .inr ⟨hs, rfl, hj⟩
  | restore ex =>
    rcases h with ⟨hs, hrest⟩ | ⟨rfl, -, hj⟩
    · have hkeep : ¬ (ex = .killing ∨ ex = .starting) := by
        rcases hs with rfl | rfl <;> decide
      simp only [threadStep, if_neg hkeep]
      exact hrest
    · -- The request that was overwritten is there again.
      exact .inr (.inr ⟨rfl, hj⟩)
  | parked =>
    rcases h with ⟨hs, hp⟩ | hw
    · simp only [threadStep, if_pos hs]
      exact .inl ⟨hs, hp⟩
    · have hwoken : state ≠ .stopped := by
        rintro rfl
        rcases hw with ⟨hs, -⟩ | ⟨hs, -⟩ <;> cases hs
      simp only [threadStep, if_neg hwoken]
      exact hw
  | exited => exact h

theorem set_exited {l : List Pc} (h : ∀ pc ∈ l, pc = .exited) (i : Nat) : l.set i .exited = l := by
  refine List.ext_getElem (by simp) fun j hj hj' => ?_
  rw [List.getElem_set]
  split
  · exact (h _ (List.getElem_mem hj')).symm
  · rfl

theorem thread_inv (hs : Inv s) {i : Nat} (hi : s.threads[i]? = some pc) :
    Inv { s with state := (threadStep s.state pc).1, threads := s.threads.set i (threadStep s.state pc).2 } where
  absent hw := by
    obtain ⟨hexited, hholder⟩ := hs.absent hw
    obtain rfl := hexited pc (List.mem_of_getElem? hi)
    refine ⟨?_, hholder⟩
    rw [threadStep, set_exited hexited]
    exact hexited
  create hh := by
    obtain ⟨hw, hstate⟩ := hs.create hh
    obtain rfl := (hs.absent hw).1 pc (List.mem_of_getElem? hi)
    exact ⟨hw, hstate⟩
  present hw := by
    obtain ⟨first, rest, hthreads, hrest, hfits⟩ := hs.present hw
    rw [hthreads] at hi ⊢
    cases i with
    | zero =>
      cases hi
      exact ⟨_, rest, rfl, hrest, threadStep_fits hfits⟩
    | succ i =>
      have hi' : rest[i]? = some pc := hi
      obtain rfl := hrest pc (List.mem_of_getElem? hi')
      refine ⟨first, rest, ?_, hrest, hfits⟩
      rw [threadStep, List.set_cons_succ, set_exited hrest]

/-! ## The calls' steps -/

/-- Without the lock, or on the way in, the thread is at work or has stopped. -/
theorem Fits.ordinary (h : Fits state holder pc) (hstart : holder ≠ some .awaitStarted) (hjoin : holder ≠ some .joining)
    (hreset : holder ≠ some .reset) :
    (state = .started ∨ state = .stopping) ∧ (pc = .working ∨ pc = .setStopped) ∨
      state = .stopped ∧ (pc = .parked ∨ ∃ ex, (ex = .started ∨ ex = .stopping) ∧ pc = .restore ex) := by
  have hasleep : ¬ Wakes state holder := by
    rintro (⟨-, h⟩ | ⟨-, h⟩)
    · exact hstart h
    · exact hjoin h
  have hruns : Runs state holder → state = .started ∨ state = .stopping := by
    rintro (⟨h, -⟩ | ⟨-, h⟩)
    · exact h
    · exact absurd h hjoin
  cases pc with
  | loopTest => exact absurd h hasleep
  | setStarted => exact absurd h.2 hstart
  | working => exact .inl ⟨hruns h, .inl rfl⟩
  | setStopped => exact .inl ⟨hruns h, .inr rfl⟩
  | restore ex =>
    rcases h with ⟨hex, hquiet | hw⟩ | ⟨-, -, hj⟩
    · exact .inr ⟨hquiet.1, .inr ⟨ex, hex, rfl⟩⟩
    · exact absurd hw hasleep
    · exact absurd hj hjoin
  | parked =>
    rcases h with hquiet | hw
    · exact .inr ⟨hquiet.1, .inl rfl⟩
    · exact absurd hw hasleep
  | exited => exact absurd h.2 (not_or.mpr ⟨hjoin, hreset⟩)

theorem fits_of_ordinary (hp : Plain holder)
    (h : (state = .started ∨ state = .stopping) ∧ (pc = .working ∨ pc = .setStopped) ∨
      state = .stopped ∧ (pc = .parked ∨ ∃ ex, (ex = .started ∨ ex = .stopping) ∧ pc = .restore ex)) :
    Fits state holder pc := by
  rcases h with ⟨hs, rfl | rfl⟩ | ⟨hs, rfl | ⟨ex, hex, rfl⟩⟩
  · exact .inl ⟨hs, hp⟩
  · exact .inl ⟨hs, hp⟩
  · exact .inl ⟨hs, hp⟩
  · exact .inl ⟨hex, .inl ⟨hs, hp⟩⟩

/-- One ordinary holder is as good as another, as long as nothing is started. -/
theorem Fits.handOver (h : Fits state holder pc) (hstart : holder ≠ some .awaitStarted ∨ state ≠ .starting)
    (hp : Plain holder) {holder' : Option Holder} (hp' : Plain holder') : Fits state holder' pc := by
  have hasleep : ¬ Wakes state holder := by
    rintro (⟨hs, hh⟩ | ⟨-, hh⟩)
    · rcases hstart with h | h
      · exact h hh
      · exact h hs
    · exact hp.2.1 hh
  have hruns : Runs state holder → Runs state holder' := by
    rintro (⟨h, -⟩ | ⟨-, h⟩)
    · exact .inl ⟨h, hp'⟩
    · exact absurd h hp.2.1
  cases pc with
  | loopTest => exact absurd h hasleep
  | setStarted => exact absurd (.inl h) hasleep
  | working => exact hruns h
  | setStopped => exact hruns h
  | restore ex =>
    rcases h with ⟨hex, hquiet | hw⟩ | ⟨-, -, hj⟩
    · exact .inl ⟨hex, .inl ⟨hquiet.1, hp'⟩⟩
    · exact absurd hw hasleep
    · exact absurd hj hp.2.1
  | parked =>
    rcases h with hquiet | hw
    · exact .inl ⟨hquiet.1, hp'⟩
    · exact absurd hw hasleep
  | exited => exact absurd h.2 (not_or.mpr hp.2)

theorem Fits.started (h : Fits state holder pc) (hstart : holder ≠ some .awaitStarted) (hp : Plain holder) :
    Fits (compareExchange state .stopped .starting) (some .awaitStarted) pc := by
  have hwakes : Wakes .starting (some .awaitStarted) := .inl ⟨rfl, rfl⟩
  have hplain : Plain (some .awaitStarted) := ⟨nofun, nofun, nofun⟩
  rcases h.ordinary hstart hp.2.1 hp.2.2 with ⟨hs, hpc⟩ | ⟨rfl, rfl | ⟨ex, hex, rfl⟩⟩
  · have hkeep : compareExchange state .stopped .starting = state := by
      rcases hs with rfl | rfl <;> rfl
    rw [hkeep]
    exact fits_of_ordinary hplain (.inl ⟨hs, hpc⟩)
  · exact .inr hwakes
  · exact .inl ⟨hex, .inr hwakes⟩

theorem Fits.told (h : Fits state holder pc) (hstart : holder ≠ some .awaitStarted) (hp : Plain holder)
    {holder' : Option Holder} (hp' : Plain holder') : Fits (compareExchange state .started .stopping) holder' pc := by
  rcases h.ordinary hstart hp.2.1 hp.2.2 with ⟨hs, hpc⟩ | hstopped
  · have htold : compareExchange state .started .stopping = .stopping := by
      rcases hs with rfl | rfl <;> rfl
    exact fits_of_ordinary hp' (.inl ⟨.inr htold, hpc⟩)
  · have hkeep : compareExchange state .started .stopping = state := by
      rw [hstopped.1]
      rfl
    rw [hkeep]
    exact fits_of_ordinary hp' (.inr hstopped)

/-- The destructor's request is there for a thread wherever it is. -/
theorem Fits.killed (h : Fits state holder pc) (hstart : holder ≠ some .awaitStarted) (hp : Plain holder) :
    Fits .killing (some .joining) pc := by
  have hwakes : Wakes .killing (some .joining) := .inr ⟨rfl, rfl⟩
  rcases h.ordinary hstart hp.2.1 hp.2.2 with ⟨-, rfl | rfl⟩ | ⟨-, rfl | ⟨ex, hex, rfl⟩⟩
  · exact .inr ⟨rfl, rfl⟩
  · exact .inr ⟨rfl, rfl⟩
  · exact .inr hwakes
  · exact .inl ⟨hex, .inr hwakes⟩

theorem entered_inv {c : Call} (hs : Inv s) (h : s.holder = some (.entered c)) : Inv (holderStep s (.entered c)) := by
  have hstart : s.holder ≠ some .awaitStarted := by
    rw [h]
    exact nofun
  have hp : Plain s.holder := by
    rw [h]
    exact ⟨nofun, nofun, nofun⟩
  have hfree : Plain none := ⟨nofun, nofun, nofun⟩
  cases hw : s.work with
  | false =>
    have hexited := (hs.absent hw).1
    have hno : ¬ s.work = true := by simp [hw]
    cases c with
    | startWorking =>
      simp only [holderStep]
      rw [if_neg hno]
      exact ⟨fun _ => ⟨hexited, .inr (.inr rfl)⟩, fun _ => ⟨hw, rfl⟩, fun hw' => absurd hw' hno⟩
    | _ =>
      simp only [holderStep]
      rw [if_neg hno]
      exact ⟨fun _ => ⟨hexited, .inl rfl⟩, nofun, fun hw' => absurd hw' hno⟩
  | true =>
    obtain ⟨pc, rest, hthreads, hrest, hfits⟩ := hs.present hw
    have hpresent {state' : WorkerState} {holder' : Option Holder} (hc : holder' ≠ some .create)
        (hf : Fits state' holder' pc) : Inv { s with state := state', holder := holder' } :=
      ⟨fun hw' => absurd (hw.symm.trans hw') nofun, fun hh => absurd hh hc,
        fun _ => ⟨pc, rest, hthreads, hrest, hf⟩⟩
    cases c with
    | startWorking =>
      simp only [holderStep]
      rw [if_pos hw]
      exact hpresent nofun (hfits.started hstart hp)
    | triggerStopWorking =>
      simp only [holderStep]
      rw [if_pos hw]
      exact hpresent nofun (hfits.told hstart hp hfree)
    | stopWorking =>
      have hwait : Plain (some .awaitStopped) := ⟨nofun, nofun, nofun⟩
      simp only [holderStep]
      rw [if_pos hw]
      exact hpresent nofun (hfits.told hstart hp hwait)
    | destroy =>
      simp only [holderStep]
      rw [if_pos hw]
      exact hpresent nofun (hfits.killed hstart hp)

/-- Only a call on its way in, or one that makes the thread, goes without one. -/
theorem Inv.work_of_holder (hs : Inv s) {h : Holder} (hh : s.holder = some h) (hin : ∀ c, h ≠ .entered c)
    (hcreate : h ≠ .create) : s.work = true := by
  cases hw : s.work with
  | true => rfl
  | false =>
    rcases (hs.absent hw).2 with hnone | ⟨c, hc⟩ | hc
    · cases hh.symm.trans hnone
    · exact absurd (Option.some.inj (hh.symm.trans hc)) (hin c)
    · exact absurd (Option.some.inj (hh.symm.trans hc)) hcreate

theorem holder_inv (hs : Inv s) {h : Holder} (hh : s.holder = some h) : Inv (holderStep s h) := by
  have hfree : Plain none := ⟨nofun, nofun, nofun⟩
  cases h with
  | entered c => exact entered_inv hs hh
  | create =>
    obtain ⟨hw, hstate⟩ := hs.create hh
    have hwakes : Wakes s.state (some .awaitStarted) := .inl ⟨hstate, rfl⟩
    exact ⟨nofun, nofun, fun _ => ⟨.loopTest, s.threads, rfl, (hs.absent hw).1, hwakes⟩⟩
  | awaitStarted =>
    have hw := hs.work_of_holder hh nofun nofun
    obtain ⟨pc, rest, hthreads, hrest, hfits⟩ := hs.present hw
    by_cases hstate : s.state = .starting
    · simp only [holderStep, if_pos hstate]
      exact hs
    · simp only [holderStep, if_neg hstate]
      refine ⟨fun hw' => absurd (hw.symm.trans hw') nofun, nofun, fun _ => ⟨pc, rest, hthreads, hrest, ?_⟩⟩
      exact hfits.handOver (.inr hstate) (hh ▸ ⟨nofun, nofun, nofun⟩) hfree
  | awaitStopped =>
    have hw := hs.work_of_holder hh nofun nofun
    obtain ⟨pc, rest, hthreads, hrest, hfits⟩ := hs.present hw
    by_cases hstate : s.state = .stopped
    · simp only [holderStep, if_pos hstate]
      refine ⟨fun hw' => absurd (hw.symm.trans hw') nofun, nofun, fun _ => ⟨pc, rest, hthreads, hrest, ?_⟩⟩
      exact hfits.handOver (.inl (hh ▸ nofun)) (hh ▸ ⟨nofun, nofun, nofun⟩) hfree
    · simp only [holderStep, if_neg hstate]
      exact hs
  | joining =>
    have hw := hs.work_of_holder hh nofun nofun
    obtain ⟨pc, rest, hthreads, hrest, hfits⟩ := hs.present hw
    by_cases hexited : s.threads.head? = some .exited
    · simp only [holderStep, if_pos hexited]
      refine ⟨fun hw' => absurd (hw.symm.trans hw') nofun, nofun, fun _ => ⟨pc, rest, hthreads, hrest, ?_⟩⟩
      rw [hthreads] at hexited
      cases hexited
      exact ⟨hfits.1, .inr rfl⟩
    · simp only [holderStep, if_neg hexited]
      exact hs
  | reset =>
    have hw := hs.work_of_holder hh nofun nofun
    obtain ⟨pc, rest, hthreads, hrest, hfits⟩ := hs.present hw
    have hexited : pc = .exited := by
      cases pc with
      | exited => rfl
      | _ => simp [Fits, Wakes, Runs, Quiet, Plain, hh] at hfits
    refine ⟨fun _ => ⟨?_, .inl rfl⟩, nofun, nofun⟩
    show ∀ q ∈ s.threads, q = .exited
    rw [hthreads]
    exact List.forall_mem_cons.mpr ⟨hexited, hrest⟩

theorem call_inv (hs : Inv s) (hh : s.holder = none) (c : Call) : Inv { s with holder := some (.entered c) } where
  absent hw := ⟨(hs.absent hw).1, .inr (.inl ⟨c, rfl⟩)⟩
  create := nofun
  present hw := by
    obtain ⟨pc, rest, hthreads, hrest, hfits⟩ := hs.present hw
    refine ⟨pc, rest, hthreads, hrest, ?_⟩
    exact hfits.handOver (.inl (hh ▸ nofun)) (hh ▸ ⟨nofun, nofun, nofun⟩) ⟨nofun, nofun, nofun⟩

/-! ## Runs -/

/-- What an event does, with what it needs. -/
theorem step_cases {e : Ev} (h : step s e = some t) :
    (∃ i pc, e = .thread i ∧ s.threads[i]? = some pc ∧
      t = { s with state := (threadStep s.state pc).1, threads := s.threads.set i (threadStep s.state pc).2 }) ∨
      (∃ k, e = .holder ∧ s.holder = some k ∧ t = holderStep s k) ∨
      ∃ c, e = .call c ∧ s.holder = none ∧ t = { s with holder := some (.entered c) } := by
  cases e with
  | thread i =>
    simp only [step] at h
    split at h
    · cases h
    · cases h
      exact .inl ⟨i, _, rfl, ‹_›, rfl⟩
  | holder =>
    simp only [step] at h
    split at h
    · cases h
    · cases h
      exact .inr (.inl ⟨_, rfl, ‹_›, rfl⟩)
  | call c =>
    obtain ⟨hfree, ⟨⟩⟩ := Option.ite_none_right_eq_some.mp h
    exact .inr (.inr ⟨c, rfl, hfree, rfl⟩)

theorem step_inv {e : Ev} (hs : Inv s) (h : step s e = some t) : Inv t := by
  obtain ⟨i, pc, -, hi, rfl⟩ | ⟨k, -, hk, rfl⟩ | ⟨c, -, hfree, rfl⟩ := step_cases h
  · exact thread_inv hs hi
  · exact holder_inv hs hk
  · exact call_inv hs hfree c

theorem inv_of_run {past : List (St × Ev)} (h : Run past s) : Inv s := by
  refine h.invariant ?_ fun s e t hs _ hstep => step_inv hs hstep
  rintro s rfl
  exact ⟨fun _ => ⟨nofun, .inl rfl⟩, nofun, nofun⟩

/-! ## After a stop -/

def Rests (state : WorkerState) : Pc → Prop
  | .loopTest => state = .killing
  | .restore ex => ex = .started ∨ ex = .stopping
  | .parked | .exited => True
  | _ => False

structure Idle (s : St) : Prop where
  state : s.state = .stopped ∨ s.state = .killing
  holder : s.holder ≠ some (.entered .startWorking) ∧ s.holder ≠ some .create ∧ s.holder ≠ some .awaitStarted
  threads : ∀ pc ∈ s.threads, Rests s.state pc

theorem threadStep_rests (hs : state = .stopped ∨ state = .killing) (h : Rests state pc) :
    (threadStep state pc).1 = state ∧ Rests state (threadStep state pc).2 := by
  cases pc with
  | loopTest =>
    obtain rfl : state = .killing := h
    exact ⟨rfl, trivial⟩
  | restore ex =>
    have hkeep : ¬ (ex = .killing ∨ ex = .starting) := by
      rcases h with rfl | rfl <;> decide
    simp only [threadStep, if_neg hkeep]
    exact ⟨trivial, trivial⟩
  | parked =>
    rcases hs with rfl | rfl
    · exact ⟨rfl, trivial⟩
    · exact ⟨rfl, rfl⟩
  | exited => exact ⟨rfl, trivial⟩
  | _ => exact absurd h id

theorem Idle.holds (h : Idle s) {holder : Option Holder} (hh : holder ≠ some (.entered .startWorking) ∧
    holder ≠ some .create ∧ holder ≠ some .awaitStarted) : Idle { s with holder } := ⟨h.state, hh, h.threads⟩

theorem holderStep_idle (hs : Idle s) {k : Holder} (hk : s.holder = some k) : Idle (holderStep s k) := by
  have hkeep : compareExchange s.state .started .stopping = s.state := by
    rcases hs.state with h | h <;> rw [h] <;> rfl
  have hfree : Idle { s with holder := none } := hs.holds ⟨nofun, nofun, nofun⟩
  cases k with
  | entered c =>
    cases c with
    | startWorking => exact absurd hk hs.holder.1
    | triggerStopWorking =>
      simp only [holderStep, hkeep, ite_self]
      exact hfree
    | stopWorking =>
      simp only [holderStep, hkeep]
      split
      · exact hs.holds ⟨nofun, nofun, nofun⟩
      · exact hfree
    | destroy =>
      simp only [holderStep]
      split
      · refine ⟨.inr rfl, ⟨nofun, nofun, nofun⟩, fun pc hpc => ?_⟩
        have hrests := hs.threads pc hpc
        cases pc with
        | loopTest => rfl
        | _ => exact hrests
      · exact hfree
  | create => exact absurd hk hs.holder.2.1
  | awaitStarted => exact absurd hk hs.holder.2.2
  | awaitStopped =>
    simp only [holderStep]
    split
    · exact hfree
    · exact hs
  | joining =>
    simp only [holderStep]
    split
    · exact hs.holds ⟨nofun, nofun, nofun⟩
    · exact hs
  | reset => exact ⟨hs.state, ⟨nofun, nofun, nofun⟩, hs.threads⟩

theorem step_idle {e : Ev} (hs : Idle s) (he : e ≠ .call .startWorking) (h : step s e = some t) : Idle t := by
  obtain ⟨i, pc, -, hi, rfl⟩ | ⟨k, -, hk, rfl⟩ | ⟨c, rfl, -, rfl⟩ := step_cases h
  · obtain ⟨hstate, hrests⟩ := threadStep_rests hs.state (hs.threads pc (List.mem_of_getElem? hi))
    rw [hstate]
    refine ⟨hs.state, hs.holder, fun q hq => ?_⟩
    rcases List.mem_or_eq_of_mem_set hq with hq | rfl
    · exact hs.threads q hq
    · exact hrests
  · exact holderStep_idle hs hk
  · refine hs.holds ⟨fun hc => he ?_, nofun, nofun⟩
    cases hc
    rfl

theorem idle_of_stop (hs : Inv s) (hh : s.holder = some .awaitStopped) (hstate : s.state = .stopped) :
    Idle { s with holder := none } := by
  obtain ⟨pc, rest, hthreads, hrest, hfits⟩ := hs.present (hs.work_of_holder hh nofun nofun)
  have hpc : Rests s.state pc := by
    rw [hh] at hfits
    rcases hfits.ordinary nofun nofun nofun with ⟨hbusy, -⟩ | ⟨-, rfl | ⟨ex, hex, rfl⟩⟩
    · rw [hstate] at hbusy
      rcases hbusy with h | h <;> cases h
    · trivial
    · exact hex
  refine ⟨.inl hstate, ⟨nofun, nofun, nofun⟩, ?_⟩
  show ∀ q ∈ s.threads, Rests s.state q
  rw [hthreads]
  refine List.forall_mem_cons.mpr ⟨hpc, fun q hq => ?_⟩
  rw [hrest q hq]
  trivial

theorem Inv.threads_le (hs : Inv s) : (s.threads.filter (· ≠ .exited)).length ≤ 1 := by
  have hnone : ∀ l : List Pc, (∀ pc ∈ l, pc = .exited) → l.filter (· ≠ .exited) = [] := by
    intro l hl
    exact List.filter_eq_nil_iff.mpr fun pc hpc => by simp [hl pc hpc]
  cases hw : s.work with
  | false =>
    rw [hnone _ (hs.absent hw).1]
    exact Nat.zero_le _
  | true =>
    obtain ⟨pc, rest, hthreads, hrest, -⟩ := hs.present hw
    rw [hthreads, List.filter_cons, hnone rest hrest]
    split <;> simp

/-- In every run: when `stopWorking` has waited for a thread and returns, no thread works until the
    next `startWorking`; there is one thread at most; and none is parked while the destructor joins. -/
theorem worker_life_cycle {past : List (St × Ev)} {s : St} (h : Run past s) :
    (∀ t, s.holder = some .awaitStopped → step s .holder = some t → t.holder = none →
      ∀ later u, Traced step (· = t) (fun _ e => e ≠ .call .startWorking) later u → .working ∉ u.threads) ∧
      (s.threads.filter (· ≠ .exited)).length ≤ 1 ∧
      ¬ (s.holder = some .joining ∧ s.state = .stopped ∧ .parked ∈ s.threads) := by
  have hs := inv_of_run h
  refine ⟨?_, hs.threads_le, ?_⟩
  · intro t hh hstep hreturned later u hrun hworks
    have hidle : Idle t := by
      simp only [step, hh, holderStep] at hstep
      by_cases hstate : s.state = .stopped
      · rw [if_pos hstate] at hstep
        cases hstep
        exact idle_of_stop hs hh hstate
      · rw [if_neg hstate] at hstep
        cases hstep
        cases hh.symm.trans hreturned
    have hlater : Idle u := by
      refine hrun.invariant ?_ fun s e t hs he hstep => step_idle hs he hstep
      rintro _ rfl
      exact hidle
    exact hlater.threads _ hworks
  · rintro ⟨hh, hstate, hparked⟩
    obtain ⟨pc, rest, hthreads, hrest, hfits⟩ := hs.present (hs.work_of_holder hh nofun nofun)
    rw [hthreads] at hparked
    rcases List.mem_cons.mp hparked with rfl | hold
    · rcases hfits with ⟨-, hp⟩ | ⟨hw, -⟩ | ⟨hw, -⟩
      · exact hp.2.1 hh
      · cases hstate.symm.trans hw
      · cases hstate.symm.trans hw
    · cases hrest _ hold

def startAndStop : List Ev :=
  [.call .startWorking, .holder, .holder, .thread 0, .thread 0, .holder, .call .stopWorking, .holder, .thread 0,
    .thread 0]

def stoppedWorker : St := { state := .stopped, work := true, threads := [.restore .stopping] }

/-- A stopped worker is killed, and ends without having worked again. -/
theorem stopped_worker_rests : ∃ past s t later u, Run past s ∧ s.holder = some .awaitStopped ∧
    step s .holder = some t ∧ Traced step (· = t) (fun _ e => e ≠ .call .startWorking) later u ∧
    u.threads = [.exited] ∧ .working ∉ u.threads := by
  obtain ⟨past, s, hrun, rfl⟩ := traced_of_record step (I := fun s => s = {}) (fun _ _ => true) rfl startAndStop
    (P := fun _ s => s = { stoppedWorker with holder := some .awaitStopped }) (by decide)
  have hrun' : Run past _ := hrun.mono fun _ _ _ => trivial
  obtain ⟨later, u, hlater, hu⟩ := traced_of_record step (I := fun s => s = stoppedWorker)
    (fun _ e => e ≠ .call .startWorking) rfl
    [.call .destroy, .holder, .thread 0, .thread 0, .thread 0, .holder, .holder]
    (P := fun _ u => u.threads = [.exited]) (by decide)
  have hlater' := hlater.mono fun _ _ he => of_decide_eq_true he
  exact ⟨past, _, _, later, u, hrun', rfl, rfl, hlater', hu,
    (worker_life_cycle hrun').1 stoppedWorker rfl rfl rfl later u hlater'⟩

end CoreMiner.DevCore.Worker
