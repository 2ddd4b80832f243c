/-
  CoreMiner.Pools.Tried — a selected pool is tried before it is given up
  (`PoolManager.cpp`: `rotateConnect`, `setActiveConnectionCommon`, `failovertimer_elapsed`).

  With at least one retry, `rotateConnect` leaves a recoverable entry only if `connect` was
  called on it since it became the active one; the first attempt goes to the first entry,
  and the first attempt behind a selection goes to the selected one, unless a failover
  comes in between (`tried_before_left`). The attempts of an entry are counted before they
  are made, and the first one never waits for the reconnect timer.

  With no retries, which the command line accepts, the counter has reached its limit before
  the first attempt, and the entry is left untried (`left_untried`).
-/

import CoreMiner.Pools.Rotation

namespace CoreMiner.Pools

open DevCore EthCore Lib Prog Stratum

variable {E : Env} {S : Settings} {m n : Manager} {s t : St} {p q : Pool} {queue : List Handler}

/-! ## Attempts -/

def tries (S : Settings) (p : Pool) (e : Ev) : Bool := (e.hands S p).any fun x => !x.2

def switches (E : Env) (S : Settings) (p : Pool) (e : Ev) : Bool :=
  (step E S p e).any fun q => decide (p.connectionSwitches < q.connectionSwitches)

theorem Selected.counters {uris : Nat → Uri} {a : Nat} (h : Selected S uris m a n) :
    n.connectionAttempt = m.connectionAttempt ∧ n.connectionSwitches = m.connectionSwitches ∨
      n.connectionAttempt = 0 := by
  cases h with
  | keep | giveUp => exact .inl ⟨rfl, rfl⟩
  | discard | advance => exact .inr rfl

/-- Where attempts are counted behind a step, the step was one, or they were counted before it
    and are still those of the same entry. -/
theorem Decides.tried {e : Ev} (hd : Decides S p e m) (hm : 0 < m.connectionAttempt) :
    tries S p e = true ∨ 0 < p.connectionAttempt ∧ m.connectionSwitches = p.connectionSwitches := by
  cases hd with
  | nothing | expires | adds | removes => exact .inr ⟨hm, rfl⟩
  | exits _ _ _ hn _ =>
    rcases hn.counters with ⟨hattempt, hswitches⟩ | hzero
    · exact .inr ⟨hattempt ▸ hm, hswitches⟩
    · exact absurd hzero hm.ne'
  | @attempts _ _ a b n _ _ _ hn _ _ hhands =>
    -- The first attempt at an entry does not wait.
    have hfirst : n.connectionAttempt = 0 → tries S p (.run _) = true := fun hzero => by
      rw [tries, hhands, hzero]
      rfl
    by_cases hzero : n.connectionAttempt = 0
    · exact .inl (hfirst hzero)
    · obtain ⟨hattempt, hswitches⟩ := hn.counters.resolve_right hzero
      exact .inr ⟨by omega, hswitches⟩
  | failover h =>
    rw [Ev.failsOver, Bool.and_eq_true] at h
    rw [failovertimerElapsed_of h.2] at hm
    exact absurd rfl hm.ne'
  | selects => exact absurd rfl hm.ne'
  | stops connected => cases connected <;> exact .inr ⟨hm, rfl⟩

theorem tried_of_run {past : List (Pool × Ev)} (h : Reach E S past p) (hp : 0 < p.connectionAttempt) :
    since (tries S) (switches E S) past = true := by
  refine h.since (J := Inv) (K := fun p => 0 < p.connectionAttempt) (fun _ => inv_init)
    (fun _ _ _ hinv _ hstep => hinv.acted (acted_of_step hstep).2) ?_ ?_ hp
  · rintro _ ⟨⟩
    exact nofun
  · intro p e q hinv _ hstep hq
    obtain ⟨m, hd, hheard⟩ := hinv.decides (acted_of_step hstep).2
    have hm : 0 < m.connectionAttempt := by
      rcases hheard.attempt with hsame | ⟨-, hzero⟩ <;> omega
    refine (hd.tried hm).imp_right fun ⟨hattempt, hswitches⟩ => ⟨hattempt, ?_⟩
    rw [switches, hstep]
    simp [hheard.kept.2.2, hswitches]

/-- An entry that is left, and was not unrecoverable, has been tried. -/
theorem tried_of_left {past : List (Pool × Ev)} {e : Ev} {a : Nat} (hr : 0 < S.connectionMaxRetries)
    (h : Reach E S past p) (hstep : step E S p e = some q) (he : e.rotates p = true) (ha : p.active = some a)
    (hmark : (p.st.uris a).unrecoverable = false)
    (hleft : q.connections ≠ p.connections ∨ q.connectionSwitches ≠ p.connectionSwitches) :
    since (tries S) (switches E S) past = true := by
  obtain ⟨m, hd, hheard⟩ := (inv_of_run h).decides (acted_of_step hstep).2
  obtain ⟨hl, -, hs⟩ := hheard.kept
  have hselected : ∀ {a' : Nat} {n : Manager}, p.active = some a' → Selected S p.st.uris p.toManager a' n →
      n.connections ≠ p.connections ∨ n.connectionSwitches ≠ p.connectionSwitches → 0 < p.connectionAttempt := by
    intro a' n ha' hn hleft
    cases ha.symm.trans ha'
    cases hn with
    | keep => exact absurd hleft (by simp)
    | discard h => rw [hmark] at h; cases h
    | giveUp _ ht _ | advance _ ht _ => omega
  refine tried_of_run h ?_
  rw [hl, hs] at hleft
  obtain ⟨_, _, rfl, hnext⟩ := next_of_rotates he
  cases hd with
  | nothing => exact absurd hleft (by simp)
  | exits _ _ ha' hn _ => exact hselected ha' hn hleft
  | attempts _ _ ha' hn _ _ _ => exact hselected ha' hn hleft
  | failover h =>
    rw [hnext.failsOver] at h
    cases h
  | selects he' => cases he'

/-! ## Selections -/

def Ev.connects (p : Pool) (e : Ev) : Bool := e.rotates p && !(p.st.started && p.st.isConnected)

/-- The entry that was selected last, unless there was an attempt or a failover since. -/
def outstanding (S : Settings) : List (Pool × Ev) → Option Nat
  | [] => none
  | (p, e) :: past =>
    if e.connects p || e.failsOver p then none
    else
      match e.selects S p.toManager with
      | some idx => if p.asyncPending then outstanding S past else p.connections[idx]?
      | none => outstanding S past

structure Fresh (S : Settings) (past : List (Pool × Ev)) (m : Manager) : Prop where
  selected : ∀ a, outstanding S past = some a → m.active = some a ∧ m.connectionAttempt = 0
  idle : m.asyncPending = false → m.connectionAttempt = 0

theorem Next.connects {random : UInt64} (hnext : Next p .rotateConnect queue)
    (hc : (p.st.started && p.st.isConnected) = false) : Ev.connects p (.run random) = true := by
  rw [Ev.connects, hnext.rotates, hc]
  rfl

theorem outstanding_cons {past : List (Pool × Ev)} {e : Ev} {a : Nat} (h : outstanding S ((p, e) :: past) = some a) :
    outstanding S past = some a ∧ (∀ idx, e.selects S p.toManager = some idx → p.asyncPending = true) ∨
      p.asyncPending = false ∧ ∃ idx, e.selects S p.toManager = some idx ∧ p.connections[idx]? = some a := by
  rw [outstanding] at h
  replace h := (Option.ite_none_left_eq_some.mp h).2
  split at h
  case h_1 idx hidx =>
    split at h
    case isTrue hpending => exact .inl ⟨h, fun _ _ => hpending⟩
    case isFalse hpending => exact .inr ⟨Bool.eq_false_of_not_eq_true hpending, idx, hidx, h⟩
  case h_2 hnone => exact .inl ⟨h, fun idx hidx => absurd (hnone.symm.trans hidx) nofun⟩

theorem Fresh.decides {past : List (Pool × Ev)} {e : Ev} (h : Fresh S past p.toManager) (hinv : Inv p)
    (hd : Decides S p e m) : Fresh S ((p, e) :: past) m := by
  -- A step that neither selects nor attempts: the active entry is the same, and so is the counter.
  have hkept : e.selects S p.toManager = none → (∀ a, p.active = some a → m.active = some a) →
      m.connectionAttempt = p.connectionAttempt → (m.asyncPending = false → p.asyncPending = false) →
      Fresh S ((p, e) :: past) m := by
    intro hnone hactive hattempt hpending
    refine ⟨fun a ha => ?_, fun hp => hattempt.trans (h.idle (hpending hp))⟩
    rcases outstanding_cons ha with ⟨hbefore, -⟩ | ⟨-, idx, hidx, -⟩
    · obtain ⟨h1, h2⟩ := h.selected a hbefore
      exact ⟨hactive a h1, hattempt.trans h2⟩
    · rw [hnone] at hidx
      cases hidx
  have hended : e.connects p = true ∨ e.failsOver p = true → outstanding S ((p, e) :: past) = none := by
    intro hends
    rw [outstanding, if_pos (by simpa using hends)]
  cases hd with
  | nothing _ hselects _ =>
    refine ⟨fun a ha => ?_, h.idle⟩
    rcases outstanding_cons ha with ⟨hbefore, -⟩ | ⟨hpending, idx, hidx, hget⟩
    · exact h.selected a hbefore
    · rcases hselects idx hidx with hpending' | ⟨-, rfl⟩
      · rw [hpending] at hpending'
        cases hpending'
      · exact ⟨hget, h.idle hpending⟩
  | exits hnext hc _ hn _ =>
    refine ⟨fun a ha => ?_, fun hp => ?_⟩
    · rw [hended (.inl (hnext.connects hc))] at ha
      cases ha
    · have hpending := hn.flags.1.trans (hinv.waiting hnext.rotations).2.1
      cases hp.symm.trans hpending
  | attempts hnext hc _ hn _ _ _ =>
    refine ⟨fun a ha => ?_, fun hp => ?_⟩
    · rw [hended (.inl (hnext.connects hc))] at ha
      cases ha
    · have hpending := hn.flags.1.trans (hinv.waiting hnext.rotations).2.1
      cases hp.symm.trans hpending
  | failover hfails =>
    refine ⟨fun a ha => ?_, fun _ => ?_⟩
    · rw [hended (.inr hfails)] at ha
      cases ha
    · rw [Ev.failsOver, Bool.and_eq_true] at hfails
      rw [failovertimerElapsed_of hfails.2]
  | expires _ => exact hkept rfl (fun _ => id) rfl id
  | adds =>
    refine hkept rfl (fun a ha => ?_) rfl id
    rw [Manager.active] at ha ⊢
    simp only [List.getElem?_append_left (List.getElem?_eq_some_iff.mp ha).1]
    exact ha
  | removes _ _ hne => exact hkept rfl (fun a ha => (removed_active hne).trans ha) rfl id
  | selects he hpending _ =>
    refine ⟨fun a ha => ?_, fun hp => ?_⟩
    · rcases outstanding_cons ha with ⟨-, hrefused⟩ | ⟨-, idx, hidx, hget⟩
      · cases hpending.symm.trans (hrefused _ he)
      · cases he.symm.trans hidx
        exact ⟨hget, rfl⟩
    · cases hp
  | stops connected =>
    cases connected <;>
    · refine hkept rfl (fun _ => id) rfl ?_
      intro hp
      cases hp

theorem Fresh.heard {past : List (Pool × Ev)} (h : Fresh S past m) (hh : Heard S t m n) : Fresh S past n where
  selected a ha := by
    obtain ⟨hactive, hattempt⟩ := h.selected a ha
    refine ⟨hh.active.trans hactive, ?_⟩
    rcases hh.attempt with hsame | ⟨-, hzero⟩
    · exact hsame.trans hattempt
    · exact hzero
  idle hp := by
    cases hh with
    | nothing hw =>
      obtain ⟨_, _, _, rfl⟩ := hw
      exact h.idle hp
    | session _ hw =>
      obtain ⟨_, _, _, rfl⟩ := hw
      rfl
    | loss stopping hw =>
      obtain ⟨_, _, _, rfl⟩ := hw
      exact h.idle (Bool.or_eq_false_iff.mp hp).1

theorem fresh_of_run {past : List (Pool × Ev)} (h : Reach E S past p) : Inv p ∧ Fresh S past p.toManager := by
  induction h with
  | start hs =>
    refine ⟨inv_init hs, nofun, fun _ => ?_⟩
    obtain ⟨⟩ := hs
    rfl
  | step e _ _ hstep ih =>
    obtain ⟨hinv, hfresh⟩ := ih
    have ha := (acted_of_step hstep).2
    obtain ⟨m, hd, hheard⟩ := hinv.decides ha
    exact ⟨hinv.acted ha, (hfresh.decides hinv hd).heard hheard⟩

/-! ## The first attempt -/

inductive Blank : St → Prop
  | mk {uris : Nat → Uri} (hu : ∀ a, (uris a).Fresh) {queue : List Handler} (now : Nat) (stopping : Bool)
    (hq : queue = [] ∨ queue = [.rotateConnect]) : Blank { Stratum.init uris with queue, now, stopping }

theorem Blank.fired {e : Stratum.Ev} (h : Blank s) (ht : Fired E s e t) (hr : e.rotates s = false) : Blank t := by
  obtain ⟨hu, now, stopping, hq⟩ := h
  cases ht with
  | run hq' =>
    rcases hq with rfl | rfl
    · cases hq'
    · cases hq'
      cases hr
  | advance => exact .mk hu _ _ hq
  | stopUnconnected _ => exact .mk hu _ _ hq
  | timerExpires h _ | reconnectTimerExpires h | callDisconnect h | stopConnected h _
  | written h | writeFails h => cases h
  | resolved h | connectCompletes h | received h _ | readFails h | shutdownCompletes h =>
    exact absurd h (Nat.lt_irrefl 0)
  | submitSolution h | submitHashrate h => cases h

theorem Blank.recoverable {a : Nat} (h : Blank s) : (s.uris a).unrecoverable = false := by
  obtain ⟨hu, -, -, -⟩ := h
  exact (hu a).unrecoverable

theorem Blank.silent (h : Blank s) : s.log = [] := by
  obtain ⟨-, -, -, -⟩ := h
  rfl

theorem Blank.popped (h : Blank s) {k : Handler} (hq : s.queue = k :: queue) : Blank { s with queue } := by
  obtain ⟨hu, now, stopping, hqueue⟩ := h
  refine .mk hu now stopping (.inl ?_)
  rcases hqueue with rfl | rfl <;> cases hq
  rfl

/-- Without an attempt there is no client. -/
theorem Blank.acted {e : Ev} (h : Blank p.st) (ha : Acted E S p e q) (he : e.hands S p = none) (hinv : Inv p) :
    Blank q.st := by
  cases ha with
  | handler hnext hk ht => exact h.fired ht (by simp [Stratum.Ev.rotates, hnext.queue, hk])
  | skip hnext _ | exits hnext _ _ => exact h.popped hnext.queue
  | attempts hnext hc hm =>
    rw [Ev.hands, hnext.rotates, hc, hm] at he
    cases he
  | fails hnext hm => exact absurd hm (hinv.rotateConnect_ne_none hnext)
  | failover _ _ ht | submits _ ht | selects _ _ _ ht | stops _ ht | hashrate ht => exact h.fired ht rfl
  | completes he' ht =>
    refine h.fired ht ?_
    cases ht <;> first | rfl | cases he'
  | idle | failoverExpires | adds | removes | reselects | refuses | fetch | found | leave => exact h

structure Unstarted (p : Pool) : Prop extends Waits p where
  blank : Blank p.st
  idx : p.activeConnectionIdx = 0
  attempt : p.connectionAttempt = 0

theorem Unstarted.decides {e : Ev} (h : Unstarted p) (hr : 0 < S.connectionMaxRetries)
    (hd : Decides S p e m) (he : e.hands S p = none) :
    m.activeConnectionIdx = 0 ∧ m.connectionAttempt = 0 ∧ m.asyncPending = true ∧ m.failovertimer = none := by
  have htimer : p.failovertimer = none := not_not.mp fun hsome => h.failing (.inl hsome)
  cases hd with
  | nothing | adds => exact ⟨h.idx, h.attempt, h.pending, htimer⟩
  | exits _ _ ha hn _ =>
    cases hn with
    | keep => exact ⟨h.idx, h.attempt, h.pending, htimer⟩
    | discard hmark => exact absurd (h.blank.recoverable.symm.trans hmark) nofun
    | giveUp _ ht _ | advance _ ht _ =>
      rw [h.attempt] at ht
      omega
  | attempts _ _ _ _ _ _ hhands => rw [he] at hhands; cases hhands
  | failover hfails => exact absurd (failing_of_failsOver hfails) h.failing
  | expires hx => exact absurd (hx.symm.trans htimer) nofun
  | removes hpending _ _ => exact absurd (hpending.symm.trans h.pending) nofun
  | selects _ hpending _ => exact absurd (hpending.symm.trans h.pending) nofun
  | stops connected =>
    cases connected with
    | true => exact ⟨h.idx, h.attempt, rfl, htimer⟩
    | false => exact ⟨h.idx, h.attempt, rfl, rfl⟩

theorem unstarted_of_run {past : List (Pool × Ev)} (hr : 0 < S.connectionMaxRetries) (h : Reach E S past p)
    (hnone : ∀ x ∈ past, x.2.hands S x.1 = none) : Unstarted p := by
  induction h with
  | start hs =>
    obtain ⟨devices, ergodicity, random, -, hu⟩ := hs
    refine ⟨⟨rfl, ?_⟩, .mk hu 0 false (.inr rfl), rfl, rfl⟩
    rintro (htimer | ⟨x, hx, -⟩)
    · exact htimer rfl
    · cases hx
  | @step past p q e hrun _ hstep ih =>
    have h := ih fun x hx => hnone x (List.mem_cons_of_mem _ hx)
    have he := hnone (p, e) List.mem_cons_self
    have hinv := inv_of_run hrun
    have ha := (acted_of_step hstep).2
    obtain ⟨m, hd, hheard⟩ := hinv.decides ha
    obtain ⟨hidx, hattempt, hpending, htimer⟩ := h.decides hr hd he
    have hblank := h.blank.acted ha he hinv
    have hsilent : .onConnected ∉ q.st.log := by simp [hblank.silent]
    obtain ⟨hattempt', hpending', htimer'⟩ := hheard.silent hsilent hpending htimer
    refine ⟨⟨hpending', ?_⟩, hblank, hheard.kept.2.1.trans hidx, hattempt'.trans hattempt⟩
    rintro (hsome | htask)
    · exact hsome htimer'
    · exact h.failing (ha.failing htask)

/-- A recoverable active entry with its attempts still to come is the one that is attempted. -/
theorem handed_of_untried {a b : Nat} {e : Ev} (hr : 0 < S.connectionMaxRetries) (hinv : Inv p) (ha : Acted E S p e q)
    (he : e.rotates p = true) (hactive : p.active = some a) (hmark : (p.st.uris a).unrecoverable = false)
    (hattempt : p.connectionAttempt = 0) (hb : .setConnection b ∈ p.news q.st) : b = a := by
  cases hinv.handed ha he with
  | skipped _ hnews | exited _ _ _ _ hnews _ => simp [hnews] at hb
  | handed _ ha' hn hb' _ hnews _ =>
    cases hactive.symm.trans ha'
    rw [hnews, List.mem_singleton, Out.setConnection.injEq] at hb
    subst hb
    cases hn with
    | keep => exact Option.some.inj (hb'.symm.trans hactive)
    | discard h => rw [hmark] at h; cases h
    | giveUp _ ht _ | advance _ ht _ =>
      rw [hattempt] at ht
      omega

/-- With at least one retry, an execution of `rotateConnect` leaves no recoverable entry untried;
    the first attempt of all goes to the first entry, and the first one behind a selection, with
    no failover in between, to the selected entry. -/
theorem tried_before_left {past : List (Pool × Ev)} {e : Ev} (hr : 0 < S.connectionMaxRetries) (h : Reach E S past p)
    (hstep : step E S p e = some q) (he : e.rotates p = true) :
    (∀ a, p.active = some a → (p.st.uris a).unrecoverable = false →
      q.connections ≠ p.connections ∨ q.connectionSwitches ≠ p.connectionSwitches →
      since (tries S) (switches E S) past = true) ∧
    ((∀ x ∈ past, x.2.hands S x.1 = none) → ∀ b, .setConnection b ∈ p.news q.st → p.connections[0]? = some b) ∧
    ∀ a, outstanding S past = some a →
      (p.st.uris a).unrecoverable = false → ∀ b, .setConnection b ∈ p.news q.st → b = a := by
  obtain ⟨hinv, hfresh⟩ := fresh_of_run h
  have ha := (acted_of_step hstep).2
  refine ⟨fun a => tried_of_left hr h hstep he, fun hnone b hb => ?_, fun a hsel hmark b => ?_⟩
  · have hunstarted := unstarted_of_run hr h hnone
    obtain ⟨_, _, rfl, hnext⟩ := next_of_rotates he
    obtain ⟨a, hactive⟩ : ∃ a, p.active = some a := ⟨_, List.getElem?_eq_getElem (hinv.rotates hnext).2⟩
    obtain rfl := handed_of_untried hr hinv ha he hactive hunstarted.blank.recoverable hunstarted.attempt hb
    rw [Manager.active, hunstarted.idx] at hactive
    exact hactive
  · obtain ⟨hactive, hattempt⟩ := hfresh.selected a hsel
    exact handed_of_untried hr hinv ha he hactive hmark hattempt

def impatientSettings : Settings := { traceSettings with connectionMaxRetries := 0 }

/-- The first `rotateConnect` leaves the first entry, which was never tried, and attempts the second. -/
theorem left_untried : ∃ q, Reach (tableEnv []) impatientSettings [] tracePool ∧
    step (tableEnv []) impatientSettings tracePool (.run 0) = some q ∧ Ev.rotates tracePool (.run 0) = true ∧
    (tracePool.active = some 0 ∧ (tracePool.st.uris 0).unrecoverable = false ∧
      q.connectionSwitches ≠ tracePool.connectionSwitches ∧
      since (tries impatientSettings) (switches (tableEnv []) impatientSettings) [] = false) ∧
    .setConnection 1 ∈ tracePool.news q.st := by
  obtain ⟨q, hq, h⟩ := (Option.any_eq_true _ _).mp
    (show (step (tableEnv []) impatientSettings tracePool (.run 0)).any (fun q =>
      decide (q.connectionSwitches ≠ tracePool.connectionSwitches ∧ .setConnection 1 ∈ tracePool.news q.st)) = true by
        decide +kernel)
  have h := of_decide_eq_true h
  exact ⟨q, .start tracePool_started, hq, rfl, ⟨rfl, rfl, h.1, rfl⟩, h.2⟩

/-- Behind a login the second entry is selected; its attempt fails, and it is left for the first. -/
theorem second_tried : ∃ past p q, Reach (tableEnv [accepted]) onceSettings past p ∧
    step (tableEnv [accepted]) onceSettings p (.run 0) = some q ∧ .setConnection 0 ∈ p.news q.st ∧
    since (tries onceSettings) (switches (tableEnv [accepted]) onceSettings) past = true := by
  obtain ⟨past, p, hrun, ⟨hr, ha, hmark⟩, hstep⟩ := traced_of_record (step (tableEnv [accepted]) onceSettings)
    (fun _ _ => true) tracePool_started
    (sessionTrace ++ [.setActiveConnection 1, .run 0, .run 0, .run 0] ++ failedTrace)
    (P := fun _ p => (Ev.rotates p (.run 0) = true ∧ p.active = some 1 ∧ (p.st.uris 1).unrecoverable = false) ∧
      (step (tableEnv [accepted]) onceSettings p (.run 0)).any (fun q => decide (.setConnection 0 ∈ p.news q.st ∧
        q.connectionSwitches ≠ p.connectionSwitches)) = true) (by decide +kernel)
  obtain ⟨q, hq, h⟩ := (Option.any_eq_true _ _).mp hstep
  have h := of_decide_eq_true h
  have hreach : Reach (tableEnv [accepted]) onceSettings past p := hrun.mono fun _ _ _ => trivial
  exact ⟨past, p, q, hreach, hq, h.1, (tried_before_left (by decide) hreach hq hr).1 1 ha hmark (.inr h.2)⟩

end CoreMiner.Pools
