/-
  CoreMiner.Pools.Decisions — what the manager decides in a step, apart from what it does on
  hearing of a session or of a loss.

  A step is a decision of the manager's own (`Decides`), which may move the index or count
  an attempt, and then what the client reports meanwhile (`Heard`), which does neither: a
  session clears the count, a loss clears the failover timer.
-/

import CoreMiner.Pools.Active

namespace CoreMiner.Pools

open DevCore EthCore Lib Prog Stratum

variable {E : Env} {S : Settings} {m n : Manager} {s t : St} {p q : Pool} {queue : List Handler}

/-- The manager has heard of a session, of a loss, or of nothing but work. -/
inductive Heard (S : Settings) (t : St) (m n : Manager) : Prop
  | nothing (h : Works m n)
  | session (hlog : .onConnected ∈ t.log) (h : Works (m.welcomed S t.now) n)
  | loss (stopping : Bool) (h : Works (m.parted stopping) n)

theorem Hears.heard (h : Hears S s m t n) : Heard S t m n := by
  cases h with
  | nothing _ hm => exact .nothing hm
  | session _ _ _ hlog hm => exact .session hlog hm
  | loss _ hm => exact .loss _ hm

/-- The list, the index and the number of switches stay as they are. -/
theorem Heard.kept (h : Heard S t m n) : n.connections = m.connections ∧
    n.activeConnectionIdx = m.activeConnectionIdx ∧ n.connectionSwitches = m.connectionSwitches := by
  cases h with
  | nothing h | session _ h | loss _ h =>
    obtain ⟨_, _, _, rfl⟩ := h
    exact ⟨rfl, rfl, rfl⟩

theorem Heard.active (h : Heard S t m n) : n.active = m.active := by
  rw [Manager.active, Manager.active, h.kept.1, h.kept.2.1]

/-- Only a session changes the number of attempts. -/
theorem Heard.attempt (h : Heard S t m n) :
    n.connectionAttempt = m.connectionAttempt ∨ .onConnected ∈ t.log ∧ n.connectionAttempt = 0 := by
  cases h with
  | nothing h | loss _ h =>
    obtain ⟨_, _, _, rfl⟩ := h
    exact .inl rfl
  | session hlog h =>
    obtain ⟨_, _, _, rfl⟩ := h
    exact .inr ⟨hlog, rfl⟩

def Task.isFailover : Task → Bool
  | failovertimerElapsed => true
  | submitProofAsync _ => false

def Ev.failsOver (p : Pool) : Ev → Bool
  | .run _ => ((p.tasks.find? Pool.due).any fun x => x.2.isFailover) && p.failovertimerElapsed.2
  | _ => false

theorem failing_of_failsOver {e : Ev} (h : e.failsOver p = true) : p.Failing := by
  cases e with
  | run random =>
    rw [Ev.failsOver, Bool.and_eq_true] at h
    obtain ⟨x, hx, hfail⟩ := (Option.any_eq_true _ _).mp h.1
    refine .inr ⟨x, List.mem_of_find?_eq_some hx, ?_⟩
    cases hx' : x.2 with
    | failovertimerElapsed => rfl
    | submitProofAsync _ => simp [hx', Task.isFailover] at hfail
  | _ => cases h

def Ev.hands (S : Settings) (p : Pool) (e : Ev) : Option (Nat × Bool) :=
  if e.rotates p && !(p.st.started && p.st.isConnected) then (p.rotateConnect S p.st.uris).bind (·.2) else none

/-- The manager's decision in a step, in a state in which its index is that of an entry. -/
inductive Decides (S : Settings) (p : Pool) : Ev → Manager → Prop
  /-- It does nothing of its own, which may be that it confirms a selection. -/
  | nothing {e : Ev} (hrotates : e.rotates p = true → (p.st.started && p.st.isConnected) = true)
    (hselects : ∀ idx, e.selects S p.toManager = some idx → p.asyncPending = true ∨
      p.asyncPending = false ∧ idx = p.activeConnectionIdx)
    (hfails : e.failsOver p = false) : Decides S p e p.toManager
  | exits {random : UInt64} {queue : List Handler} {a : Nat} {n : Manager} (hnext : Next p .rotateConnect queue)
    (hc : (p.st.started && p.st.isConnected) = false) (ha : p.active = some a)
    (hn : Selected S p.st.uris p.toManager a n) (h : n.connections = [] ∨ ∃ b, n.active = some b ∧
      (p.st.uris b).host = "exit") : Decides S p (.run random) n.exit
  | attempts {random : UInt64} {queue : List Handler} {a b : Nat} {n : Manager} (hnext : Next p .rotateConnect queue)
    (hc : (p.st.started && p.st.isConnected) = false) (ha : p.active = some a)
    (hn : Selected S p.st.uris p.toManager a n) (hb : n.active = some b) (hhost : (p.st.uris b).host ≠ "exit")
    (hhands : Ev.hands S p (.run random) =
      some (b, decide (1 < n.connectionAttempt + 1 ∧ 0 < S.delayBeforeRetry))) :
    Decides S p (.run random) n.attempt
  | failover {random : UInt64} (h : Ev.failsOver p (.run random) = true) :
    Decides S p (.run random) p.failovertimerElapsed.1
  | expires {x : Nat} (hx : p.failovertimer = some x) :
    Decides S p .failovertimerExpires { p.toManager with failovertimer := none }
  | adds {a : Nat} : Decides S p (.addConnection (.ok a)) { p.toManager with connections := p.connections ++ [a] }
  | removes {idx : Nat} (hpending : p.asyncPending = false) (hidx : idx < p.connections.length)
    (hne : idx ≠ p.activeConnectionIdx) : Decides S p (.removeConnection idx) (p.removed idx)
  | selects {e : Ev} {idx : Nat} (he : e.selects S p.toManager = some idx) (hpending : p.asyncPending = false)
    (hne : idx ≠ p.activeConnectionIdx) : Decides S p e (p.switchedTo idx)
  | stops (connected : Bool) : Decides S p .stop (p.toManager.stop connected)

theorem Decides.client {r : Pool} {random : UInt64} {e : Ev} {e' : Stratum.Ev} (hd : Decides S p e r.toManager)
    (ht : Fired E r.st e' t) (hrotates : e'.rotates r.st = false) :
    ∃ m, Decides S p e m ∧ Heard S t m (r.hearing S random t).toManager := by
  have hlog : (r.st.taken e').log = r.st.log := by cases e' <;> rfl
  exact ⟨_, hd, (hears_of_seen hlog (ht.seen hrotates)).heard⟩

theorem Decides.alone {e : Ev} (hd : Decides S p e m) : ∃ n, Decides S p e n ∧ Heard S t n m :=
  ⟨m, hd, .nothing (.refl m)⟩

theorem Decides.quiet {e : Ev} (hrotates : e.rotates p = false) (hselects : e.selects S p.toManager = none)
    (hfails : e.failsOver p = false) : Decides S p e p.toManager := by
  refine .nothing (fun hr => ?_) (fun idx hidx => ?_) hfails
  · cases hrotates.symm.trans hr
  · cases hselects.symm.trans hidx

theorem Decides.running {random : UInt64} (hrotates : Ev.rotates p (.run random) = true →
    (p.st.started && p.st.isConnected) = true) (hfails : Ev.failsOver p (.run random) = false) :
    Decides S p (.run random) p.toManager := .nothing hrotates nofun hfails

theorem Next.failsOver {random : UInt64} {k : Handler} (h : Next p k queue) : Ev.failsOver p (.run random) = false := by
  rw [Ev.failsOver, h.due]
  rfl

theorem Inv.decides {e : Ev} (h : Inv p) (ha : Acted E S p e q) :
    ∃ m, Decides S p e m ∧ Heard S q.st m q.toManager := by
  cases ha with
  | handler hnext hk ht =>
    have hrotates : (p.st.queue.head?.any Handler.isRotate) = false := by simp [hnext.queue, hk]
    refine Decides.client (r := p.passed false) (.running (fun hr => ?_) hnext.failsOver) ht hrotates
    rw [Ev.rotates, hrotates, Bool.and_false] at hr
    cases hr
  | @skip random k queue hnext hc =>
    refine Decides.alone (.running (fun hr => hc ?_) hnext.failsOver)
    simpa [Ev.rotates, hnext.due, hnext.queue] using hr
  | exits hnext hc hm =>
    obtain ⟨a, n, ha, hn, hrotated⟩ := rotated_of_rotateConnect (h.rotates hnext).2 hm
    cases hrotated with
    | exit hexit => exact Decides.alone (.exits hnext hc ha hn hexit)
  | @attempts random queue m b delayed hnext hc hm =>
    obtain ⟨a, n, ha, hn, hrotated⟩ := rotated_of_rotateConnect (h.rotates hnext).2 hm
    cases hrotated with
    | attempt hb hhost =>
      refine Decides.alone (.attempts hnext hc ha hn hb hhost ?_)
      rw [Ev.hands, hnext.rotates, hc, hm]
      rfl
  | fails hnext hm => exact absurd hm (h.rotateConnect_ne_none hnext)
  | failover hdue hm ht =>
    refine Decides.client (r := { p with tasks := _, toManager := _ }) (.failover ?_) ht rfl
    rw [Ev.failsOver, hdue, hm]
    rfl
  | @idle _ _ task hdue hidle =>
    refine Decides.alone (.running (fun hr => ?_) ?_)
    · rw [Ev.rotates, hdue] at hr
      cases hr
    · rw [Ev.failsOver, hdue]
      cases task with
      | failovertimerElapsed => exact hidle rfl
      | submitProofAsync _ => rfl
  | submits hdue ht =>
    refine Decides.client (r := { p with tasks := _ }) (.running (fun hr => ?_) ?_) ht rfl
    · rw [Ev.rotates, hdue] at hr
      cases hr
    · rw [Ev.failsOver, hdue]
      rfl
  | completes he ht =>
    exact ⟨_, .quiet rfl rfl rfl, (hears_of_seen rfl (.inl (ht.completion_hushed he).told)).heard⟩
  | failoverExpires hx => exact Decides.alone (.expires hx)
  | adds => exact Decides.alone .adds
  | removes hpending hidx hne => exact Decides.alone (.removes hpending hidx hne)
  | selects he hpending hne ht =>
    exact Decides.client (r := { p with toManager := _ }) (.selects he hpending hne) ht rfl
  | @reselects e idx he hpending hidx =>
    refine Decides.alone (.nothing (fun hr => ?_) (fun idx' he' => .inr ⟨hpending, ?_⟩) ?_)
    · cases e <;> first | cases hr | cases he
    · cases he.symm.trans he'
      exact hidx
    · cases e <;> first | rfl | cases he
  | @refuses e he hs hstop =>
    refine Decides.alone (.nothing (fun hr => ?_) (fun idx' he' => .inl (hs idx' he')) ?_)
    · cases e <;> first | cases hr | cases he
    · cases e <;> first | rfl | cases he
  | stops _ ht => exact Decides.client (r := { p with toManager := _ }) (.stops _) ht rfl
  | hashrate ht => exact Decides.client (r := p) (.quiet rfl rfl rfl) ht rfl
  | fetch _ _ => exact Decides.alone (.quiet rfl rfl rfl)
  | found _ => exact Decides.alone (.quiet rfl rfl rfl)
  | leave => exact Decides.alone (.quiet rfl rfl rfl)

end CoreMiner.Pools
