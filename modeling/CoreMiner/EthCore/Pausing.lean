/-
  CoreMiner.EthCore.Pausing — pause reasons and the work of a miner over whole histories
  (`Miner.cpp`: `setWork`, `pause`, `paused`, `resume`; `Farm.cpp`: `setWork`, `pause`, `resume`).

  A reason stands from its `pause` to its `resume`, whatever happens to the other ones
  (`mem_pauseFlags_iff`). The header is cleared in two places, by `pause` and by a `setWork` that
  finds the miner paused, and `resume` leaves it cleared: so a miner without a reason holds work
  only if the work came after its last resumption (`pause_reasons_independent`).
-/

import CoreMiner.EthCore.Farm
import Mathlib.Data.List.Induction

namespace CoreMiner.EthCore

/-! ## Histories -/

inductive MinerEv where
  | pause (what : MinerPauseEnum)
  | resume (fromwhat : MinerPauseEnum)
  | setWork (wp : WorkPackage)

namespace Miner

def handle (m : Miner) : MinerEv → Miner
  | .pause what => m.pause what
  | .resume fromwhat => m.resume fromwhat
  | .setWork wp => m.setWork wp

def after (m : Miner) (evs : List MinerEv) : Miner := evs.foldl handle m

@[simp] theorem after_concat (m : Miner) (evs : List MinerEv) (ev : MinerEv) :
    m.after (evs ++ [ev]) = (m.after evs).handle ev := by
  simp [after]

/-- The event of index `j` took the last reason away. -/
def ResumedAt (m : Miner) (evs : List MinerEv) (j : Nat) : Prop :=
  (m.after (evs.take j)).paused = true ∧ (m.after (evs.take (j + 1))).paused = false

end Miner

/-- The reason was given, and not taken back since. -/
def Standing (what : MinerPauseEnum) (evs : List MinerEv) : Prop :=
  ∃ past recent, evs = past ++ .pause what :: recent ∧ MinerEv.resume what ∉ recent

inductive FleetOp where
  | miner (i : Nat) (ev : MinerEv)
  | setWork (wp : WorkPackage) (random : UInt64)
  | pause
  | resume

namespace Farm

def call (f : Farm) : FleetOp → Option Farm
  | .miner i ev => some { f with miners := f.miners.modify i (·.handle ev) }
  | .setWork wp random => (f.setWork wp random).map (·.1)
  | .pause => some f.pause
  | .resume => some f.resume

def reaches (f : Farm) (i : Nat) : FleetOp → Option MinerEv
  | .miner j ev => if j = i then some ev else none
  | .setWork wp random => (f.setWork wp random).bind fun (_, given) => given[i]?.map .setWork
  | .pause => some (.pause .farmPaused)
  | .resume => some (.resume .farmPaused)

def calls (f : Farm) (ops : List FleetOp) : Option Farm := ops.foldlM call f

def received (f : Farm) (i : Nat) : List FleetOp → List MinerEv
  | [] => []
  | op :: ops =>
    match f.call op with
    | none => []
    | some g => (f.reaches i op).toList ++ g.received i ops

end Farm

/-! ## One miner -/

theorem Standing.concat_iff {what : MinerPauseEnum} {evs : List MinerEv} {ev : MinerEv} :
    Standing what (evs ++ [ev]) ↔ ev = .pause what ∨ Standing what evs ∧ ev ≠ .resume what := by
  constructor
  · rintro ⟨past, recent, heq, hrecent⟩
    -- The last event is the pause itself, or one behind it.
    rcases List.eq_nil_or_concat' recent with rfl | ⟨recent, last, rfl⟩
    · exact .inl (List.singleton_inj.mp (List.append_inj_right' heq rfl))
    · rw [← List.cons_append, ← List.append_assoc] at heq
      obtain ⟨rfl, hlast⟩ := List.append_inj' heq rfl
      cases hlast
      refine .inr ⟨⟨past, recent, rfl, fun h => hrecent (by simp [h])⟩, ?_⟩
      rintro rfl
      exact hrecent (by simp)
  · rintro (rfl | ⟨⟨past, recent, rfl, hrecent⟩, hne⟩)
    · exact ⟨evs, [], rfl, List.not_mem_nil⟩
    · refine ⟨past, recent ++ [ev], by simp, ?_⟩
      simp only [List.mem_append, List.mem_singleton, not_or]
      exact ⟨hrecent, hne.symm⟩

namespace Miner

variable {m : Miner} {evs : List MinerEv} {what : MinerPauseEnum}

theorem paused_iff : m.paused = true ↔ ∃ what, what ∈ m.pauseFlags := by
  rw [paused, Bool.not_eq_true', List.isEmpty_eq_false_iff_exists_mem]

theorem pauseFlags_setWork (m : Miner) (wp : WorkPackage) : (m.setWork wp).pauseFlags = m.pauseFlags := by
  unfold setWork
  split <;> rfl

/-- Exactly the standing reasons are set. -/
theorem mem_pauseFlags_iff (hm : m.pauseFlags = []) : what ∈ (m.after evs).pauseFlags ↔ Standing what evs := by
  induction evs using List.reverseRecOn with
  | nil =>
    simp only [after, List.foldl_nil, hm, List.not_mem_nil, false_iff]
    rintro ⟨past, recent, heq, -⟩
    simp at heq
  | append_singleton evs ev ih =>
    rw [after_concat, Standing.concat_iff, ← ih]
    cases ev with
    | pause what' =>
      rw [handle, pause, List.mem_insert_iff, MinerEv.pause.injEq, and_iff_left (by simp)]
      exact or_congr_left eq_comm
    | resume what' =>
      rw [handle, resume, List.mem_filter, decide_eq_true_iff, ne_comm]
      simp
    | setWork wp => simp [handle, pauseFlags_setWork]

/-- A paused miner holds no work. -/
theorem header_of_paused (hm : m.work.header = .zero 32) (h : (m.after evs).paused = true) :
    (m.after evs).work.header = .zero 32 := by
  induction evs using List.reverseRecOn with
  | nil => exact hm
  | append_singleton evs ev ih =>
    rw [after_concat] at h ⊢
    cases ev with
    | pause what => rfl
    | resume what =>
      -- It was paused before, so its header was cleared, and stays so.
      obtain ⟨what', hmem⟩ := paused_iff.mp h
      exact ih (paused_iff.mpr ⟨what', List.mem_of_mem_filter hmem⟩)
    | setWork wp =>
      have hpaused : (m.after evs).paused = true := by
        rw [paused, ← pauseFlags_setWork _ wp]
        exact h
      show ((m.after evs).setWork wp).work.header = _
      rw [setWork, if_pos hpaused]

theorem ResumedAt.of_concat {ev : MinerEv} {j : Nat} (h : m.ResumedAt (evs ++ [ev]) j) :
    m.ResumedAt evs j ∨ j = evs.length ∧ (m.after evs).paused = true ∧ ((m.after evs).handle ev).paused = false := by
  obtain ⟨hbefore, hafter⟩ := h
  rcases Nat.lt_trichotomy j evs.length with hj | rfl | hj
  · rw [List.take_append_of_le_length (by omega)] at hbefore hafter
    exact .inl ⟨hbefore, hafter⟩
  · rw [List.take_append_of_le_length (by omega), List.take_length] at hbefore
    rw [List.take_of_length_le (by simp), after_concat] at hafter
    exact .inr ⟨rfl, hbefore, hafter⟩
  · rw [List.take_of_length_le (by simp; omega)] at hbefore hafter
    rw [hafter] at hbefore
    cases hbefore

/-- Work that a miner holds came after its last resumption. -/
theorem work_since_resumed (hm : m.work.header = .zero 32) (hidle : (m.after evs).paused = false)
    (hwork : (m.after evs).work.header ≠ .zero 32) :
    ∃ k wp, evs[k]? = some (.setWork wp) ∧ ∀ j, m.ResumedAt evs j → j < k := by
  induction evs using List.reverseRecOn with
  | nil => exact absurd hm hwork
  | append_singleton evs ev ih =>
    rw [after_concat] at hidle hwork
    cases ev with
    | pause what => exact absurd rfl hwork
    | resume what =>
      have hbefore : (m.after evs).paused = false := by
        by_contra hpaused
        exact hwork (header_of_paused hm (by simpa using hpaused))
      obtain ⟨k, wp, hk, hlast⟩ := ih hbefore hwork
      refine ⟨k, wp, ?_, fun j hj => ?_⟩
      · rw [List.getElem?_append_left (List.getElem?_eq_some_iff.mp hk).1]
        exact hk
      · rcases hj.of_concat with hj | ⟨-, hpaused, -⟩
        · exact hlast j hj
        · rw [hbefore] at hpaused
          cases hpaused
    | setWork wp =>
      refine ⟨evs.length, wp, by simp, fun j hj => ?_⟩
      have hsame : ((m.after evs).setWork wp).paused = (m.after evs).paused := by
        rw [paused, pauseFlags_setWork]
        rfl
      rcases hj.of_concat with hj | ⟨-, hpaused, hafter⟩
      · by_contra hle
        rw [ResumedAt, List.take_of_length_le (by omega), List.take_of_length_le (by omega)] at hj
        rw [hj.2] at hj
        cases hj.1
      · rw [handle, hsame, hpaused] at hafter
        cases hafter

theorem paused_resume {other : MinerPauseEnum} (h : other ∈ m.pauseFlags) (hne : what ≠ other) :
    (m.resume what).paused = true :=
  paused_iff.mpr ⟨other, by simp [resume, h, hne.symm]⟩

def Alike (m n : Miner) : Prop := m.pauseFlags = n.pauseFlags ∧ m.work = n.work

theorem Alike.handle {m n : Miner} (h : m.Alike n) (ev : MinerEv) : (m.handle ev).Alike (n.handle ev) := by
  obtain ⟨hflags, hwork⟩ := h
  cases ev with
  | pause what => simp [Alike, Miner.handle, pause, hflags, hwork]
  | resume what => simp [Alike, Miner.handle, resume, hflags, hwork]
  | setWork wp =>
    have hpaused : m.paused = n.paused := by rw [paused, paused, hflags]
    simp only [Alike, Miner.handle, setWork, hpaused]
    split <;> simp [hflags, hwork]

end Miner

/-! ## The miners of a farm -/

namespace Farm

open Miner (Alike)

/-- The miners after a `setWork`: a new epoch is entered first. -/
theorem setWork_miners {f g : Farm} {wp : WorkPackage} {random : UInt64} {given : List WorkPackage}
    (h : f.setWork wp random = some (g, given)) : given.length = f.miners.length ∧
      ∃ enter : Miner → Miner, (∀ m, (enter m).Alike m ∧ (enter m).index = m.index) ∧
        g.miners = List.zipWith (fun m wp => (enter m).setWork wp) f.miners given := by
  obtain ⟨scrambler, start, width, -, -, -, rfl, rfl⟩ := setWork_cases h
  refine ⟨packages_length .., _, fun m => ?_, rfl⟩
  split <;> exact ⟨⟨rfl, rfl⟩, rfl⟩

theorem call_miner {f g : Farm} {op : FleetOp} {i : Nat} {m : Miner} (h : f.call op = some g)
    (hm : f.miners[i]? = some m) :
    ∃ n, g.miners[i]? = some n ∧ n.Alike (m.after (f.reaches i op).toList) := by
  cases op with
  | miner j ev =>
    cases h
    by_cases hj : j = i
    · exact ⟨m.handle ev, by simp [hj, hm], by simp [reaches, hj, Miner.after, Alike]⟩
    · exact ⟨m, by simp [hj, hm], by simp [reaches, hj, Miner.after, Alike]⟩
  | setWork wp random =>
    obtain ⟨⟨g', given⟩, hset, rfl⟩ := Option.map_eq_some_iff.mp h
    obtain ⟨hlength, enter, hsame, hminers⟩ := setWork_miners hset
    have hi : i < given.length := by
      rw [hlength]
      exact (List.getElem?_eq_some_iff.mp hm).1
    refine ⟨(enter m).setWork given[i], ?_, ?_⟩
    · show g'.miners[i]? = _
      rw [hminers, List.getElem?_zipWith, hm, List.getElem?_eq_getElem hi]
    · have hreach : f.reaches i (.setWork wp random) = some (.setWork given[i]) := by
        rw [reaches, hset]
        simp [hi]
      rw [hreach]
      exact (hsame m).1.handle (.setWork given[i])
  | pause =>
    cases h
    exact ⟨m.pause .farmPaused, by simp [pause, hm], rfl, rfl⟩
  | resume =>
    cases h
    exact ⟨m.resume .farmPaused, by simp [resume, hm], rfl, rfl⟩

theorem calls_length {f g : Farm} {ops : List FleetOp} (h : f.calls ops = some g) :
    g.miners.length = f.miners.length := by
  induction ops generalizing f with
  | nil =>
    cases h
    rfl
  | cons op ops ih =>
    obtain ⟨f', hcall, hrest⟩ := Option.bind_eq_some_iff.mp h
    rw [ih hrest]
    cases op with
    | miner i ev => cases hcall; exact List.length_modify ..
    | setWork wp random =>
      obtain ⟨⟨g', given⟩, hset, rfl⟩ := Option.map_eq_some_iff.mp hcall
      obtain ⟨hlength, enter, -, hminers⟩ := setWork_miners hset
      show g'.miners.length = _
      rw [hminers, List.length_zipWith, hlength, Nat.min_self]
    | pause => cases hcall; exact List.length_map _
    | resume => cases hcall; exact List.length_map _

/-- After any calls a miner is as what has reached it leaves it. -/
theorem calls_miner {f g : Farm} {ops : List FleetOp} {i : Nat} {m : Miner} (h : f.calls ops = some g)
    (hm : f.miners[i]? = some m) : ∃ n, g.miners[i]? = some n ∧ n.Alike (m.after (f.received i ops)) := by
  have hafter {m n : Miner} (h : m.Alike n) (evs : List MinerEv) : (m.after evs).Alike (n.after evs) := by
    induction evs generalizing m n with
    | nil => exact h
    | cons ev evs ih => exact ih (h.handle ev)
  induction ops generalizing f m with
  | nil =>
    cases h
    exact ⟨m, hm, rfl, rfl⟩
  | cons op ops ih =>
    obtain ⟨f', hcall, hrest⟩ := Option.bind_eq_some_iff.mp h
    obtain ⟨n, hn, halike⟩ := call_miner hcall hm
    obtain ⟨n', hn', halike'⟩ := ih hrest hn
    have hrun := hafter halike (f'.received i ops)
    refine ⟨n', hn', ?_⟩
    rw [received, hcall, Miner.after, List.foldl_append]
    exact ⟨halike'.1.trans hrun.1, halike'.2.trans hrun.2⟩

/-- In every history of the miners of a farm: a miner is paused exactly if some reason stands, then
    it holds no work, work it holds otherwise came after its last resumption, and no reason is
    taken back by the `resume` of another one. -/
theorem pause_reasons_independent {f g : Farm} {ops : List FleetOp} {n i : Nat} {m : Miner}
    (hnew : f.miners = (List.range n).map fun i => { index := i }) (h : f.calls ops = some g)
    (hm : g.miners[i]? = some m) :
    (m.paused = true ↔ ∃ what, Standing what (f.received i ops)) ∧
    (m.paused = true → m.work.header = .zero 32) ∧
    (m.paused = false → m.work.header ≠ .zero 32 →
      ∃ k wp, (f.received i ops)[k]? = some (.setWork wp) ∧
        ∀ j, Miner.ResumedAt { index := i } (f.received i ops) j → j < k) ∧
    ∀ what other, what ≠ other → Standing other (f.received i ops) → (m.resume what).paused = true := by
  have hlength : i < n := by
    have hi := (List.getElem?_eq_some_iff.mp hm).1
    rw [calls_length h, hnew] at hi
    simpa using hi
  have hstart : f.miners[i]? = some { index := i } := by
    rw [hnew]
    simp [hlength]
  obtain ⟨n, hn, hflags, hwork⟩ := calls_miner h hstart
  cases hm.symm.trans hn
  have hpaused : m.paused = (Miner.after { index := i } (f.received i ops)).paused := by
    rw [Miner.paused, hflags]
    rfl
  have hstanding {what : MinerPauseEnum} : what ∈ m.pauseFlags ↔ Standing what (f.received i ops) := by
    rw [hflags]
    exact Miner.mem_pauseFlags_iff rfl
  refine ⟨?_, ?_, ?_, ?_⟩
  · rw [Miner.paused_iff]
    exact exists_congr fun _ => hstanding
  · rw [hpaused, hwork]
    exact Miner.header_of_paused rfl
  · rw [hpaused, hwork]
    exact Miner.work_since_resumed rfl
  · exact fun what other hne hother => Miner.paused_resume (hstanding.mpr hother) hne

/-- A miner that the API has paused does not go on when the farm does. -/
theorem api_pause_outlasts_farm : ∃ g m,
    (init [.cpu] 0 7).start.calls [.miner 0 (.pause .apiRequest), .pause, .resume] = some g ∧
      g.miners[0]? = some m ∧ m.paused = true ∧ m.work.header = .zero 32 ∧ (m.resume .farmPaused).paused = true := by
  refine ⟨_, _, rfl, rfl, ?_⟩
  obtain ⟨hpaused, hheader, -, hother⟩ := @pause_reasons_independent (init [.cpu] 0 7).start _
    [.miner 0 (.pause .apiRequest), .pause, .resume] 1 0 _ rfl rfl rfl
  have hstanding : Standing .apiRequest ((init [.cpu] 0 7).start.received 0
      [.miner 0 (.pause .apiRequest), .pause, .resume]) :=
    ⟨[], [.pause .farmPaused, .resume .farmPaused], rfl, by simp⟩
  have hp := hpaused.mpr ⟨_, hstanding⟩
  exact ⟨hp, hheader hp, hother _ _ (by decide) hstanding⟩

end Farm

end CoreMiner.EthCore
