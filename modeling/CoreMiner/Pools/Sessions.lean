/-
  CoreMiner.Pools.Sessions — what the farm and the failover timer make of the client's
  reports (`PoolManager.cpp`: `setClientHandlers`, `failovertimer_elapsed`; `Farm.cpp`:
  `setWork`, `start`, `stop`, `pause`, `resume`).

  The log of the client is read here as a history of sessions: one is on from
  `onConnected` to `onDisconnected`, and its job is the newest package that came within it,
  that has a boundary and that the farm can divide among its miners; on one without a
  boundary the program ends (`callback_throws_iff`). Over every run:
  - `miners_follow_session`: the farm mines, and is not paused, only within a session, and a
    package a miner holds is the session's job, whatever else came before or in between.
  - `fallback_watched`: while a session with a pool other than the first is on and nothing
    else is pending, the failover timer is armed, or its handler is on its way.

  A selection by the API moves the index before the session ends, so the second holds only
  where nothing is pending.
-/

import CoreMiner.Pools.Stop
import CoreMiner.Stratum.Intake

namespace CoreMiner.Pools

open DevCore EthCore Lib Stratum

variable {E : Env} {S : Settings} {m n : Manager} {s t : St} {p q : Pool} {random : UInt64} {f g : Farm}
  {w wp : WorkPackage} {log new : List Out} {past : List (Pool × Ev)}

/-! ## The history -/

def inSession : List Out → Bool
  | [] => false
  | .onConnected :: _ => true
  | .onDisconnected :: _ => false
  | _ :: log => inSession log

/-- The nonces the pool leaves can be divided among `miners`. -/
def divisible (miners : Nat) (wp : WorkPackage) : Bool :=
  wp.exSizeBytes = 0 || (Farm.segmentWidth wp.exSizeBytes.toNat miners).isSome

def job (miners : Nat) : List Out → Option WorkPackage
  | [] => none
  | .onDisconnected :: _ => none
  | .onWorkReceived wp :: log =>
    if inSession log ∧ wp.header ≠ .zero 32 ∧ wp.boundary ≠ .zero 32 ∧ divisible miners wp then some wp
    else job miners log
  | _ :: log => job miners log

/-! ## The farm -/

theorem setWork_frame {given : List WorkPackage} (h : f.setWork wp random = some (g, given)) :
    g.devices = f.devices ∧ g.paused = f.paused ∧ g.miners.length = f.miners.length := by
  obtain ⟨scrambler, start, width, -, -, -, rfl, rfl⟩ := Farm.setWork_cases h
  exact ⟨rfl, rfl, Farm.assign_miners_length _ wp width (Farm.packages_length ..)⟩

/-- A package with an extranonce is handed out where its nonces can be divided. -/
theorem divisible_of_setWork {given : List WorkPackage} (h : f.setWork wp random = some (g, given)) :
    divisible f.miners.length wp = true := by
  obtain ⟨scrambler, start, width, -, hchoose, -, -, -⟩ := Farm.setWork_cases h
  rw [divisible, Bool.or_eq_true, decide_eq_true_eq]
  by_cases hex : wp.exSizeBytes = 0
  · exact .inl hex
  · rw [Farm.chooseSegments, if_pos (UInt16.pos_iff_ne_zero.mpr hex)] at hchoose
    obtain ⟨width, hwidth, -⟩ := Option.map_eq_some_iff.mp hchoose
    exact .inr (Option.isSome_iff_exists.mpr ⟨width, hwidth⟩)

/-- The segments of a package with an extranonce are narrower than the nonces are. -/
theorem segmentWidth_lt {e miners width : Nat} (he : 0 < e) (h : Farm.segmentWidth e miners = some width) :
    width < 64 := by
  unfold Farm.segmentWidth at h
  split_ifs at h with hundefined hfits hjust
  · cases h
    have hpos : 0 < miners := by omega
    have hle := (Nat.le_mul_of_pos_left _ hpos).trans (Arcs.mul_two_pow_log2_le hpos hfits)
    have := (Nat.pow_le_pow_iff_right (by decide)).mp hle
    omega
  · cases h
    decide

theorem setWork_width {given : List WorkPackage} (hw : f.nonceSegmentWidth < 64)
    (h : f.setWork wp random = some (g, given)) : g.nonceSegmentWidth < 64 := by
  obtain ⟨scrambler, start, width, -, hchoose, -, -, rfl⟩ := Farm.setWork_cases h
  show width < 64
  unfold Farm.chooseSegments at hchoose
  split at hchoose
  case isTrue hex =>
    obtain ⟨width, hwidth, heq⟩ := Option.map_eq_some_iff.mp hchoose
    cases heq
    exact segmentWidth_lt (UInt16.lt_iff_toNat_lt.mp hex) hwidth
  case isFalse =>
    cases hchoose
    exact hw

/-- A package that can be divided is handed out. -/
theorem setWork_ne_none (hw : f.nonceSegmentWidth < 64) (hd : divisible f.miners.length wp = true) :
    f.setWork wp random ≠ none := by
  have hdistribute : ∀ scrambler, { f with nonceScrambler := scrambler }.distribute wp ≠ none := by
    intro scrambler
    obtain ⟨start, width, hchoose, hwidth⟩ : ∃ start width,
        { f with nonceScrambler := scrambler }.chooseSegments wp = some (start, width) ∧ width < 64 := by
      unfold Farm.chooseSegments
      split
      case isTrue hex =>
        have hne : wp.exSizeBytes ≠ 0 := UInt16.pos_iff_ne_zero.mp hex
        rw [divisible, decide_eq_false hne, Bool.false_or] at hd
        obtain ⟨width, hwidth⟩ := Option.isSome_iff_exists.mp hd
        exact ⟨_, width, by rw [hwidth]; rfl, segmentWidth_lt (UInt16.lt_iff_toNat_lt.mp hex) hwidth⟩
      case isFalse => exact ⟨_, _, rfl, hw⟩
    rw [Farm.distribute, hchoose]
    simp only
    rw [if_neg (by omega)]
    exact Option.some_ne_none _
  unfold Farm.setWork
  split
  · exact hdistribute random
  · exact hdistribute f.nonceScrambler

/-! ## The farm follows the log -/

def OnJob (miners : Nat) (log : List Out) (w : WorkPackage) : Prop := ∃ wp, job miners log = some wp ∧ SameJob wp w

structure Follows (f : Farm) (log : List Out) : Prop where
  tidy : Tidy f
  crew : f.miners.length = 0 ∨ f.miners.length = f.subscribed
  width : f.nonceSegmentWidth < 64
  idle : inSession log = false → Idle f
  mining : f.isMining = true → f.paused = false → inSession log = true
  held : Held (OnJob f.subscribed log) f

theorem Follows.stop (h : Follows f log) : Follows f.stop log := by
  unfold Farm.stop
  split
  · refine ⟨fun _ => rfl, .inl rfl, h.width, fun _ x hx => ?_, fun hmining => ?_, fun x hx => ?_⟩
    · cases hx
    · cases hmining
    · cases hx
  · exact h

/-- The miners are started, or go on with the job they have. -/
theorem Follows.connected (h : Follows f log) : Follows (Manager.spinUp f) (.onConnected :: log) := by
  have hsame : (Manager.spinUp f).subscribed = f.subscribed ∧
      (Manager.spinUp f).nonceSegmentWidth = f.nonceSegmentWidth ∧
      ((Manager.spinUp f).miners.length = f.miners.length ∨ (Manager.spinUp f).miners.length = f.subscribed) := by
    unfold Manager.spinUp Farm.start
    split_ifs <;> simp [Farm.subscribed, Farm.resume]
  obtain ⟨hsubscribed, hwidth, hminers⟩ := hsame
  refine ⟨h.tidy.spinUp, ?_, hwidth ▸ h.width, fun hnone => (by cases hnone), fun _ _ => rfl, ?_⟩
  · rw [hsubscribed]
    rcases hminers with hsame | hall
    · exact hsame ▸ h.crew
    · exact .inr hall
  · rw [hsubscribed]
    exact h.held.spinUp

theorem Follows.disconnected (h : Follows f log) : Follows f.pause (.onDisconnected :: log) where
  tidy hmining := by simp [Farm.pause, h.tidy hmining]
  crew := by
    rw [Farm.pause, List.length_map]
    exact h.crew
  width := h.width
  idle _ := pause_idle f
  mining _ hpaused := by cases hpaused
  held := (pause_idle f).held

theorem Follows.over (h : Follows f log) : Follows f.stop (.onDisconnected :: log) := { h.stop with
  idle := fun _ => h.tidy.stopped
  mining := fun hmining => by
    rw [stop_isMining] at hmining
    cases hmining
  held := h.tidy.stopped.held }

/-- Where there is a miner there are all of them. -/
theorem Follows.complete {x : Miner} (h : Follows f log) (hx : x ∈ f.miners) : f.miners.length = f.subscribed := by
  refine h.crew.resolve_left fun hzero => ?_
  rw [List.length_eq_zero_iff.mp hzero] at hx
  cases hx

/-- A package that is handed out becomes the job, or there is no session and nobody takes it. -/
theorem Follows.given {epoch : Int} {given : List WorkPackage} (h : Follows f log) (hheader : wp.header ≠ .zero 32)
    (hboundary : wp.boundary ≠ .zero 32) (hset : f.setWork { wp with epoch } random = some (g, given)) :
    Follows g (.onWorkReceived wp :: log) := by
  obtain ⟨hdevices, hpaused, hlength⟩ := setWork_frame hset
  obtain ⟨hmining, hempty, hminers⟩ := setWork_miners hset
  have hsubscribed : g.subscribed = f.subscribed := by rw [Farm.subscribed, hdevices, Farm.subscribed]
  refine {
    tidy := fun hstopped => hempty (h.tidy (hmining.symm.trans hstopped))
    crew := by
      rw [hsubscribed, hlength]
      exact h.crew
    width := setWork_width h.width hset
    idle := fun hnone x hx => ?_
    mining := fun hm hp => h.mining (hmining.symm.trans hm) (hpaused.symm.trans hp)
    held := fun x hx => ?_ }
  · obtain ⟨m', hm', hsame, ⟨-, hvoid⟩ | ⟨hresumed, -⟩⟩ := hminers x hx
    · exact ⟨hsame.trans (h.idle hnone m' hm').1, hvoid⟩
    · cases hresumed.symm.trans (h.idle hnone m' hm').1
  · obtain ⟨m', hm', -, ⟨-, hvoid⟩ | ⟨hresumed, startNonce, hwork⟩⟩ := hminers x hx
    · exact .inl hvoid
    · have hsession : inSession log = true := by
        by_contra hnone
        cases hresumed.symm.trans (h.idle (Bool.eq_false_of_not_eq_true hnone) m' hm').1
      have hdivisible : divisible f.miners.length { wp with epoch } = true := divisible_of_setWork hset
      refine .inr ⟨wp, ?_, startNonce, epoch, hwork⟩
      rw [hsubscribed, job, if_pos ⟨hsession, hheader, hboundary, h.complete hm' ▸ hdivisible⟩]

/-- A package that is no job for the miners leaves them as they are. -/
theorem Follows.skips (h : Follows f log)
    (hno : ∀ x ∈ f.miners, ¬ (wp.header ≠ .zero 32 ∧ wp.boundary ≠ .zero 32 ∧ divisible f.subscribed wp = true)) :
    Follows f (.onWorkReceived wp :: log) := { h with
  held := fun x hx => by
    have hjob : job f.subscribed (.onWorkReceived wp :: log) = job f.subscribed log :=
      if_neg fun hall => hno x hx hall.2
    rw [OnJob, hjob]
    exact h.held x hx }

/-- A package that is not handed out cannot be divided among the miners. -/
theorem Follows.kept {epoch : Int} (h : Follows f log) (hset : f.setWork { wp with epoch } random = none) :
    Follows f (.onWorkReceived wp :: log) :=
  h.skips fun _ hx hall => setWork_ne_none h.width (h.complete hx ▸ hall.2.2) hset

theorem Follows.received (mode : Nat) (h : Follows m.farm log) (hm : m.HasTarget) :
    Follows (m.onWorkReceived S mode random wp).farm (.onWorkReceived wp :: log) := by
  unfold Manager.onWorkReceived
  split
  case isTrue hvoid => exact h.skips fun _ _ hall => hall.1 hvoid
  case isFalse hheader =>
    split
    case isTrue hthrows =>
      have hno : ¬ wp.HasBoundary := by
        rw [← Manager.taking_hasBoundary S mode m, ← Manager.showMiningAt_isOk_iff]
        simp only [Bool.and_eq_true, Bool.not_eq_true'] at hthrows
        simp [hthrows.2]
      exact h.skips fun _ _ hall => hno fun _ => hall.2.1
    case isFalse hreturns =>
      have hboundary : wp.boundary ≠ .zero 32 := by
        intro hzero
        refine hreturns ?_
        rw [hm.newDiffOrEpoch hzero, Bool.true_and, Bool.not_eq_true', Bool.eq_false_iff, ne_eq,
          Manager.showMiningAt_isOk_iff, Manager.taking_hasBoundary]
        exact fun hhas => hhas hheader hzero
      obtain ⟨epoch, hepoch⟩ := Manager.withEpoch_eq S mode wp m
      show Follows (((m.farm.setWork (m.withEpoch S mode wp) random).map (·.1)).getD m.farm) _
      cases hset : m.farm.setWork (m.withEpoch S mode wp) random with
      | none => exact h.kept (hepoch ▸ hset)
      | some x => exact h.given hheader hboundary (hepoch ▸ hset)

theorem Follows.react {o : Out} (h : Follows m.farm log) (hm : m.HasTarget) :
    Follows (react S t random o m).farm (o :: log) := by
  cases o with
  | onConnected =>
    refine Follows.connected (f := if m.farm.ergodicity = 1 then m.farm.shuffle random else m.farm) ?_
    split
    · exact { h with }
    · exact h
  | onDisconnected =>
    show Follows (m.onDisconnected t.stopping).farm _
    unfold Manager.onDisconnected
    split
    · exact h.over
    · exact h.disconnected
  | onWorkReceived wp => exact h.received _ hm
  | _ => exact { h with }

theorem Manager.HasTarget.same (h : n.HasTarget) (hm : m.currentWp = n.currentWp) : m.HasTarget := by
  rw [HasTarget, hm]
  exact h

theorem Selected.currentWp {a : Nat} {uris : Nat → Uri} (h : Selected S uris m a n) : n.currentWp = m.currentWp := by
  cases h <;> rfl

theorem failovertimerElapsed_currentWp (m : Manager) : m.failovertimerElapsed.1.currentWp = m.currentWp := by
  unfold Manager.failovertimerElapsed
  split <;> rfl

theorem stop_currentWp (m : Manager) (connected : Bool) : (m.stop connected).currentWp = m.currentWp := by
  unfold Manager.stop
  split <;> rfl

theorem onWorkReceived_hasTarget (mode : Nat) (hm : m.HasTarget) (hwp : wp.HasBoundary) :
    (m.onWorkReceived S mode random wp).HasTarget := by
  obtain ⟨epoch, hepoch⟩ := Manager.withEpoch_eq S mode wp m
  have htaken (hheader : wp.header ≠ .zero 32) : (m.withEpoch S mode wp).boundary ≠ .zero 32 := by
    rw [hepoch]
    exact hwp hheader
  unfold Manager.onWorkReceived
  split
  · exact hm
  · split <;> exact .inr (htaken ‹_›)

theorem react_hasTarget {o : Out} (hm : m.HasTarget) (ho : ∀ w, o = .onWorkReceived w → w.HasBoundary) :
    (react S t random o m).HasTarget := by
  cases o with
  | onDisconnected =>
    show (m.onDisconnected t.stopping).HasTarget
    unfold Manager.onDisconnected
    split <;> exact hm
  | onWorkReceived wp => exact onWorkReceived_hasTarget _ hm (ho wp rfl)
  | _ => exact hm

theorem hears_hasTarget (hm : m.HasTarget) (hnew : ∀ w, Out.onWorkReceived w ∈ new → w.HasBoundary) :
    (new.foldr (Pools.react S t random) m).HasTarget := by
  induction new with
  | nil => exact hm
  | cons o new ih =>
    refine react_hasTarget (ih fun w hw => hnew w (List.mem_cons_of_mem _ hw)) fun w hw => hnew w ?_
    rw [hw]
    exact List.mem_cons_self

theorem Follows.hears (h : Follows m.farm log) (hm : m.HasTarget)
    (hnew : ∀ w, Out.onWorkReceived w ∈ new.tail → w.HasBoundary) :
    Follows (new.foldr (Pools.react S t random) m).farm (new ++ log) := by
  induction new with
  | nil => exact h
  | cons o new ih => exact (ih fun w hw => hnew w (List.mem_of_mem_tail hw)).react (hears_hasTarget hm hnew)

theorem log_of_seen (h : Seen s t) : ∃ new, t.log = new ++ s.log := by
  rcases h with h | h
  · obtain ⟨new, hlog, -⟩ := h.log
    exact ⟨new, hlog⟩
  · obtain ⟨new, later, hlog, -⟩ := h.log
    exact ⟨later ++ .onDisconnected :: new, hlog⟩

/-- The farm follows the log, and the callback throws on the newest report at most. -/
structure InStep (p : Pool) : Prop where
  follows : Follows p.farm p.st.log
  reports : Reports p.st
  hasTarget : p.st.crashed = none → p.HasTarget

theorem InStep.seen (h : Follows p.farm p.st.log) (hm : p.HasTarget) (hs : Seen s t) (hlog : s.log = p.st.log)
    (ht : Reports t) : InStep (p.hearing S random t) := by
  obtain ⟨new, hnew⟩ := log_of_seen hs
  rw [hlog] at hnew
  have hnews : (p.hearing S random t).toManager = new.foldr (Pools.react S t random) p.toManager := by
    rw [Pool.hearing, news_eq new hnew]
  refine ⟨?_, ht, fun hc => ?_⟩
  · show Follows (p.hearing S random t).toManager.farm t.log
    rw [hnews, hnew]
    refine h.hears hm fun w hw => ht.before w ?_
    cases new with
    | nil => cases hw
    | cons o new =>
      rw [hnew]
      exact List.mem_append_left _ hw
  · show (p.hearing S random t).toManager.HasTarget
    rw [hnews]
    refine hears_hasTarget hm fun w hw => ht.running hc w ?_
    rw [hnew]
    exact List.mem_append_left _ hw

/-- The manager's own moves stop the farm, or leave it as it is. -/
theorem Follows.moved (h : Follows f log) (hm : m.farm = f ∨ m.farm = f.stop) : Follows m.farm log := by
  rcases hm with hm | hm
  · rw [hm]
    exact h
  · rw [hm]
    exact h.stop

theorem InStep.acted {e : Ev} (h : InStep p) (hcrash : p.st.crashed = none) (hinv : Inv p) (ha : Acted E S p e q) :
    InStep q := by
  have hall : AllBounded p.st := h.reports.running hcrash
  have htarget : p.HasTarget := h.hasTarget hcrash
  cases ha with
  | handler hnext hk ht =>
    have hseen := ht.seen (by simp [Stratum.Ev.rotates, hnext.queue, hk])
    exact InStep.seen (p := p.passed false) h.follows htarget hseen rfl (ht.reports hall)
  | exits hnext _ hm =>
    obtain ⟨a, n, -, hn, hrotated⟩ := rotated_of_rotateConnect (hinv.rotates hnext).2 hm
    cases hrotated
    exact ⟨h.follows.moved (m := n.exit) (.inr (congrArg Farm.stop hn.farm)), ⟨h.reports.before, h.reports.running⟩,
      fun _ => htarget.same (m := n.exit) hn.currentWp⟩
  | @attempts random queue m b delayed hnext hc hm =>
    obtain ⟨a, n, -, hn, hrotated⟩ := rotated_of_rotateConnect (hinv.rotates hnext).2 hm
    have hm : m.farm = p.farm ∧ m.currentWp = p.currentWp := by
      cases hrotated
      exact ⟨hn.farm, hn.currentWp⟩
    have hrebound : Rebound b { p.st with queue }
        (call (Stratum.rotateConnect (some (b, delayed))) { p.st with queue }) := rebound_of_rotate hc
    refine ⟨?_, AllBounded.reports fun w hw => ?_, fun _ => htarget.same (m := m) hm.2⟩
    · show Follows m.farm (call (Stratum.rotateConnect (some (b, delayed))) { p.st with queue }).log
      rw [hm.1, hrebound.log]
      exact { h.follows with }
    · rw [hrebound.log] at hw
      exact hall w ((List.mem_cons.mp hw).resolve_left (by simp))
  | failover _ _ ht =>
    have hmoved := h.follows.moved (.inl (failovertimerElapsed_farm p.toManager))
    exact InStep.seen (p := { p with tasks := _, toManager := p.failovertimerElapsed.1 }) hmoved
      (htarget.same (failovertimerElapsed_currentWp _)) (ht.seen rfl) rfl (ht.reports hall)
  | submits _ ht =>
    exact InStep.seen (p := { p with tasks := p.tasks.eraseP Pool.due }) h.follows htarget (ht.seen rfl) rfl
      (ht.reports hall)
  | completes he ht => exact .seen h.follows htarget (.inl (ht.completion_hushed he).told) rfl (ht.reports hall)
  | @selects _ idx _ _ _ _ ht =>
    exact InStep.seen (p := { p with toManager := p.switchedTo idx }) h.follows (htarget.same rfl) (ht.seen rfl) rfl
      (ht.reports hall)
  | stops _ ht =>
    have hmoved := h.follows.moved (stop_farm p.toManager (p.st.started && p.st.isConnected))
    exact InStep.seen (p := { p with toManager := p.toManager.stop _ }) hmoved (htarget.same (stop_currentWp _ _))
      (ht.seen rfl) rfl (ht.reports hall)
  | hashrate ht => exact .seen h.follows htarget (ht.seen rfl) rfl (ht.reports hall)
  | fails _ _ => exact ⟨h.follows, ⟨h.reports.before, fun hnone => by cases hnone⟩, fun hnone => by cases hnone⟩
  | _ => exact ⟨h.follows, ⟨h.reports.before, h.reports.running⟩, fun _ => htarget.same rfl⟩

theorem inStep_of_run {C : Pool → Ev → Prop} (h : Run E S C past p) : InStep p := by
  induction h with
  | start hs =>
    obtain ⟨devices, ergodicity, random, -, -⟩ := hs
    refine ⟨⟨fun _ => rfl, .inl rfl, (by decide : 32 < 64), fun _ m hm => (by cases hm), fun hm => (by cases hm),
      fun m hm => (by cases hm)⟩, AllBounded.reports fun w hw => (by cases hw), fun _ => .inl rfl⟩
  | step e hrun _ hstep ih =>
    obtain ⟨hcrash, hacted⟩ := acted_of_step hstep
    exact ih.acted hcrash (inv_of_run hrun) hacted

/-- While the program runs, the manager's callback throws on the packages without a boundary, and on no other. -/
theorem callback_throws_iff (h : Reach E S past p) (hc : p.st.crashed = none) (mode : Nat) (wp : WorkPackage) :
    wp.header ≠ .zero 32 ∧ p.newDiffOrEpoch mode wp = true ∧ (p.taking S mode wp).showMiningAt.isOk = false ↔
      ¬ wp.HasBoundary := by
  have htarget : p.HasTarget := (inStep_of_run h).hasTarget hc
  have hshow : (p.taking S mode wp).showMiningAt.isOk = false ↔ ¬ wp.HasBoundary := by
    rw [← Manager.taking_hasBoundary S mode p.toManager, ← Manager.showMiningAt_isOk_iff, Bool.not_eq_true]
  rw [hshow]
  constructor
  · exact fun hthrows => hthrows.2.2
  · intro hno
    obtain ⟨hheader, hzero⟩ := Classical.not_imp.mp hno
    exact ⟨hheader, htarget.newDiffOrEpoch (not_not.mp hzero), hno⟩

theorem inSession_append (h : ∀ o ∈ new, o.isHeard = false) : inSession (new ++ log) = inSession log := by
  induction new with
  | nil => rfl
  | cons o new ih =>
    have hrest := ih fun o ho => h o (List.mem_cons_of_mem _ ho)
    have ho := h o List.mem_cons_self
    cases o <;> first | exact hrest | cases ho

structure OnFallback (S : Settings) (p : Pool) : Prop where
  session : inSession p.st.log = true
  running : p.running = true
  settled : p.asyncPending = false
  fallback : p.activeConnectionIdx ≠ 0
  timeout : S.poolFailoverTimeout ≠ 0

/-- When the timer is to expire if it is armed at `now`. -/
def Settings.expiry (S : Settings) (now : Nat) : Nat := now + S.poolFailoverTimeout * Manager.minute

/-- Where a session is on there is a connection, and on a fallback the timer was armed at one of these
    times, or its handler is to come. -/
structure Watched (S : Settings) (times : Nat → Prop) (p : Pool) : Prop where
  bound : inSession p.st.log = true → p.st.conn ≠ none
  failing : OnFallback S p →
    (∃ now, times now ∧ p.failovertimer = some (S.expiry now)) ∨ ∃ x ∈ p.tasks, x.2 = .failovertimerElapsed

variable {times : Nat → Prop}

theorem Watched.hears (h : Watched S times p) (hnow : times t.now) (hh : Hears S s p.toManager t n)
    (hlog : s.log = p.st.log) (hconn : s.conn = p.st.conn) : Watched S times { p with toManager := n, st := t } := by
  cases hh with
  | nothing ht hm =>
    obtain ⟨new, hnew, hheard⟩ := ht.log
    obtain ⟨_, _, _, rfl⟩ := hm
    have hsame : inSession t.log = inSession p.st.log := by rw [hnew, hlog, inSession_append hheard]
    constructor
    · intro hsession
      show t.conn ≠ none
      rw [ht.conn, hconn]
      exact h.bound (hsame.symm.trans hsession)
    · intro hf
      exact h.failing { hf with session := hsame.symm.trans hf.session }
  | @session _ a hc _ _ hm =>
    obtain ⟨_, _, _, rfl⟩ := hm
    constructor
    · intro _ hnone
      cases hnone.symm.trans hc
    · intro hf
      exact .inl ⟨t.now, hnow, if_pos ⟨hf.fallback, hf.timeout⟩⟩
  | loss ht hm =>
    obtain ⟨new, later, hnew, hbefore, hafter⟩ := ht.log
    have hnone : inSession t.log = false := by
      rw [hnew, List.append_assoc, inSession_append hafter]
      rfl
    exact ⟨fun hsession => (by cases hnone.symm.trans hsession), fun hf => (by cases hnone.symm.trans hf.session)⟩

theorem Watched.seen (h : Watched S times p) (hs : Seen s t) (hnow : times t.now) (hlog : s.log = p.st.log)
    (hconn : s.conn = p.st.conn) : Watched S times (p.hearing S random t) :=
  h.hears hnow (hears_of_seen hlog hs) hlog hconn

/-- Another task than the failover is taken off. -/
theorem Watched.taken {x : Nat} {task : Task} (h : Watched S times p)
    (hdue : p.tasks.find? Pool.due = some (x, task)) (htask : OnFallback S p → task ≠ .failovertimerElapsed) :
    Watched S times { p with tasks := p.tasks.eraseP Pool.due } := by
  refine { h with failing := fun hf => ?_ }
  have hf : OnFallback S p := { hf with }
  refine (h.failing hf).imp_right fun hposted => ?_
  obtain ⟨y, hy, hfailover⟩ := hposted
  obtain ⟨hx, before, after, heq, hbefore⟩ := List.find?_eq_some_iff_append.mp hdue
  have herased : p.tasks.eraseP Pool.due = before ++ after := by
    rw [heq, List.eraseP_append_right _ (fun b hb => by simpa using hbefore b hb), List.eraseP_cons_of_pos hx]
  have hne : y ≠ (x, task) := fun heq => htask hf ((congrArg Prod.snd heq).symm.trans hfailover)
  rw [heq] at hy
  refine ⟨y, ?_, hfailover⟩
  rw [herased]
  simpa [hne] using hy

theorem Watched.acted {e : Ev} (h : Watched S times p) (hnow : times q.st.now) (hinv : Inv p)
    (ha : Acted E S p e q) : Watched S times q := by
  have hpassed : Watched S times (p.passed false) := { h with
    failing := fun hf => (h.failing { hf with }).imp_right fun hposted => by
      obtain ⟨x, hx, hfailover⟩ := hposted
      exact ⟨_, List.mem_map_of_mem hx, hfailover⟩ }
  cases ha with
  | handler hnext hk ht => exact hpassed.seen (ht.seen (by simp [Stratum.Ev.rotates, hnext.queue, hk])) hnow rfl rfl
  | skip _ _ => exact { hpassed with failing := fun hf => hpassed.failing { hf with } }
  | @exits _ queue m hnext _ hm =>
    obtain ⟨a, n, -, hn, hrotated⟩ := rotated_of_rotateConnect (hinv.rotates hnext).2 hm
    cases hrotated
    exact { h with failing := fun hf => by cases hf.running }
  | @attempts random queue m b delayed hnext hc hm =>
    have hrebound : Rebound b { p.st with queue }
        (call (Stratum.rotateConnect (some (b, delayed))) { p.st with queue }) := rebound_of_rotate hc
    have hnone : inSession p.st.log = false := by
      by_contra hsession
      exact h.bound (Bool.eq_true_of_not_eq_false hsession) (hinv.waiting hnext.rotations).1
    have hstill : inSession (call (Stratum.rotateConnect (some (b, delayed))) { p.st with queue }).log = false := by
      rw [hrebound.log]
      exact hnone
    exact ⟨fun hsession => (by cases hstill.symm.trans hsession), fun hf => (by cases hstill.symm.trans hf.session)⟩
  | fails hnext hm => exact absurd hm (hinv.rotateConnect_ne_none hnext)
  | @failover _ x _ hdue hm ht =>
    refine Watched.seen (p := { p with tasks := p.tasks.eraseP Pool.due, toManager := p.failovertimerElapsed.1 })
      { h with failing := fun hf => ?_ } (ht.seen rfl) hnow rfl rfl
    have hfirst : p.failovertimerElapsed.1.activeConnectionIdx = 0 := by
      unfold Manager.failovertimerElapsed at hm ⊢
      split
      · rfl
      · rw [if_neg ‹_›] at hm
        cases hm
    exact absurd hfirst hf.fallback
  | @idle _ x task hdue hnothing =>
    refine h.taken hdue fun hf hfailover => ?_
    have hidle := hnothing hfailover
    rw [Manager.failovertimerElapsed, if_pos ⟨hf.running, hf.fallback⟩] at hidle
    cases hidle
  | submits hdue ht => exact (h.taken hdue fun _ => (by simp)).seen (ht.seen rfl) hnow rfl rfl
  | completes he ht => exact h.seen (.inl (ht.completion_hushed he).told) hnow rfl rfl
  | failoverExpires _ =>
    refine { h with failing := fun _ => .inr ⟨(p.st.queue.length, .failovertimerElapsed), ?_, rfl⟩ }
    exact List.mem_append_right _ List.mem_cons_self
  | @removes idx hpending hidx hne =>
    refine { h with failing := fun hf => h.failing { hf with fallback := fun hzero => hf.fallback ?_ } }
    show (if idx < p.activeConnectionIdx then _ else _) = 0
    rw [hzero, if_neg (Nat.not_lt_zero _)]
  | @selects _ idx t _ _ _ ht =>
    refine Watched.seen (p := { p with toManager := p.switchedTo idx }) { h with failing := fun hf => ?_ } (ht.seen rfl)
      hnow rfl rfl
    cases hf.settled
  | stops _ ht =>
    refine Watched.seen (p := { p with toManager := p.toManager.stop _ }) { h with failing := fun hf => ?_ }
      (ht.seen rfl) hnow rfl rfl
    have hsettled : (p.toManager.stop (p.st.started && p.st.isConnected)).asyncPending = false := hf.settled
    unfold Manager.stop at hsettled
    split at hsettled <;> cases hsettled
  | hashrate ht => exact h.seen (ht.seen rfl) hnow rfl rfl
  | found _ =>
    refine { h with failing := fun hf => (h.failing { hf with }).imp_right fun hposted => ?_ }
    obtain ⟨x, hx, hfailover⟩ := hposted
    exact ⟨x, List.mem_append_left _ hx, hfailover⟩
  | _ => exact { h with failing := fun hf => h.failing { hf with } }

/-- The timer was armed at a moment of the run. -/
theorem failover_watched_of_run {C : Pool → Ev → Prop} (h : Run E S C past p) :
    Watched S (fun now => ∃ r ∈ p :: past.map Prod.fst, now = r.st.now) p := by
  induction h with
  | start hs =>
    obtain ⟨devices, ergodicity, random, -, -⟩ := hs
    exact ⟨fun hsession => (by cases hsession), fun hf => (by cases hf.session)⟩
  | @step past p q e hrun _ hstep ih =>
    have hlater : Watched S (fun now => ∃ r ∈ q :: p :: past.map Prod.fst, now = r.st.now) p := { ih with
      failing := fun hf => (ih.failing hf).imp_left fun harmed => by
        obtain ⟨now, ⟨r, hr, heq⟩, harmed⟩ := harmed
        exact ⟨now, ⟨r, List.mem_cons_of_mem _ hr, heq⟩, harmed⟩ }
    exact hlater.acted ⟨q, List.mem_cons_self, rfl⟩ (inv_of_run hrun) (acted_of_step hstep).2

theorem act_of_step {e : Ev} (h : step E S p e = some q) : act E S p e = some q := by
  unfold step at h
  split at h
  · cases h
  · exact h

/-- The handler of the timer turns to the first pool. -/
theorem failover_returns {x : Nat} (hf : OnFallback S p)
    (hdue : p.tasks.find? Pool.due = some (x, .failovertimerElapsed)) (hstep : step E S p (.run random) = some q) :
    q.activeConnectionIdx = 0 := by
  have hact := act_of_step hstep
  have helapsed : p.failovertimerElapsed.2 = true ∧ p.failovertimerElapsed.1.activeConnectionIdx = 0 := by
    rw [Manager.failovertimerElapsed, if_pos ⟨hf.running, hf.fallback⟩]
    exact ⟨rfl, rfl⟩
  simp only [act, Pool.runNext, hdue, Pool.runTask, Pool.switched, helapsed.1, if_true] at hact
  obtain ⟨t, ht, rfl⟩ := client_cases hact
  exact (hears_of_seen rfl (ht.seen rfl)).heard.kept.2.1.trans helapsed.2

/-- While a session with a fallback is on and nothing is pending, the timer is armed for the timeout
    from some moment of the run on, or its handler is on its way, which will turn to the first pool. -/
theorem fallback_watched (h : Reach E S past p) (hf : OnFallback S p) :
    (∃ r ∈ p :: past.map Prod.fst,
      p.failovertimer = some (r.st.now + S.poolFailoverTimeout * Manager.minute)) ∨
    (∃ x ∈ p.tasks, x.2 = .failovertimerElapsed) ∧
      ∀ x random q, p.tasks.find? Pool.due = some (x, .failovertimerElapsed) →
        step E S p (.run random) = some q → q.activeConnectionIdx = 0 := by
  rcases (failover_watched_of_run h).failing hf with ⟨now, ⟨r, hr, rfl⟩, harmed⟩ | hposted
  · exact .inl ⟨r, hr, harmed⟩
  · exact .inr ⟨hposted, fun x random q hdue hstep => failover_returns hf hdue hstep⟩

/-- A session with the second pool. -/
theorem second_pool_watched : ∃ past p, Reach (tableEnv [accepted]) traceSettings past p ∧
    OnFallback traceSettings p ∧ ∃ r ∈ p :: past.map Prod.fst,
      p.failovertimer = some (r.st.now + traceSettings.poolFailoverTimeout * Manager.minute) := by
  obtain ⟨past, p, hrun, hsession, hrunning, hsettled, hfallback, hnone⟩ := traced_of_record
    (step (tableEnv [accepted]) traceSettings) (fun _ _ => true) tracePool_started
    (sessionTrace ++ .setActiveConnection 1 :: .run 0 :: .run 0 :: .run 0 :: sessionTrace)
    (P := fun _ p => inSession p.st.log = true ∧ p.running = true ∧ p.asyncPending = false ∧
      p.activeConnectionIdx ≠ 0 ∧ p.tasks.length = 0) (by decide +kernel)
  have hreach := hrun.mono (D := fun _ _ => True) fun _ _ _ => trivial
  have hf : OnFallback traceSettings p := ⟨hsession, hrunning, hsettled, hfallback, by decide⟩
  refine ⟨past, p, hreach, hf, (fallback_watched hreach hf).resolve_right ?_⟩
  rintro ⟨⟨x, hx, -⟩, -⟩
  rw [List.length_eq_zero_iff.mp hnone] at hx
  cases hx

end CoreMiner.Pools
