/-
  CoreMiner.Pools.Moves — what the steps of the program do.

  The manager hears of a session or of a loss, or of nothing but work (`Hears`). A step is
  one of the cases of `Acted`; `acted_of_step` is the only place where the step function is
  taken apart, and the invariants of the runs are proved about these cases.
-/

import CoreMiner.Pools.System

namespace CoreMiner.Pools

open DevCore EthCore Lib Prog Stratum

variable {E : Env} {S : Settings} {m n : Manager} {s t : St} {p q : Pool} {random : UInt64}

/-! ## Hearing -/

def Works (m n : Manager) : Prop := ∃ farm currentWp epochChanges, n = { m with farm, currentWp, epochChanges }

namespace Manager

def failoverAt (m : Manager) (S : Settings) (now : Nat) : Option Nat :=
  if m.activeConnectionIdx ≠ 0 ∧ S.poolFailoverTimeout ≠ 0 then some (now + S.poolFailoverTimeout * minute) else none

def welcomed (m : Manager) (S : Settings) (now : Nat) : Manager :=
  { m with connectionAttempt := 0, failovertimer := m.failoverAt S now, asyncPending := false }

def parted (m : Manager) (stopping : Bool) : Manager := { m with
  failovertimer := none
  running := m.running && !stopping
  asyncPending := m.asyncPending || !stopping }

end Manager

theorem Works.refl (m : Manager) : Works m m := ⟨_, _, _, rfl⟩

theorem Works.trans {l : Manager} (h : Works l m) (h' : Works m n) : Works l n := by
  obtain ⟨_, _, _, rfl⟩ := h
  obtain ⟨_, _, _, rfl⟩ := h'
  exact ⟨_, _, _, rfl⟩

theorem onWorkReceived_works (mode : Nat) (wp : WorkPackage) (m : Manager) :
    Works m (m.onWorkReceived S mode random wp) := by
  unfold Manager.onWorkReceived
  split
  · exact .refl m
  · split
    · exact ⟨_, _, _, rfl⟩
    · exact ⟨_, _, _, rfl⟩

theorem onConnected_works (now : Nat) (m : Manager) : Works (m.welcomed S now) (m.onConnected S now random) :=
  ⟨_, _, _, rfl⟩

theorem onDisconnected_works (stopping : Bool) (m : Manager) :
    Works (m.parted stopping) (m.onDisconnected stopping) := by
  cases stopping
  · exact ⟨m.farm.pause, { m.currentWp with header := .zero 32 }, m.epochChanges,
      by simp [Manager.onDisconnected, Manager.parted]⟩
  · exact ⟨m.farm.stop, { m.currentWp with header := .zero 32 }, m.epochChanges,
      by simp [Manager.onDisconnected, Manager.parted]⟩

theorem Works.welcomed (h : Works m n) (now : Nat) : Works (m.welcomed S now) (n.welcomed S now) := by
  obtain ⟨_, _, _, rfl⟩ := h
  exact ⟨_, _, _, rfl⟩

theorem Works.parted (h : Works m n) (stopping : Bool) : Works (m.parted stopping) (n.parted stopping) := by
  obtain ⟨_, _, _, rfl⟩ := h
  exact ⟨_, _, _, rfl⟩

/-- What the manager does not act on changes nothing of its own. -/
theorem react_works (random : UInt64) {o : Out} (ho : o.isHeard = false) (t : St) (m : Manager) :
    Works m (react S t random o m) := by
  cases o <;> first | exact .refl m | exact onWorkReceived_works _ _ m | cases ho

theorem hear_nothing {new : List Out} (h : ∀ o ∈ new, o.isHeard = false) (t : St) (m : Manager) :
    Works m (new.foldr (react S t random) m) := by
  induction new with
  | nil => exact .refl m
  | cons o new ih =>
    exact (ih fun o ho => h o (List.mem_cons_of_mem _ ho)).trans (react_works random (h o List.mem_cons_self) t _)

/-- Of several sessions that start in one transmission the manager notices no more than of one. -/
theorem hear_session (random : UInt64) {new : List Out} (h : ∀ o ∈ new, o.isHeard = true → o = .onConnected) (t : St)
    (m : Manager) :
    (∀ o ∈ new, o.isHeard = false) ∧ Works m (new.foldr (react S t random) m) ∨
      .onConnected ∈ new ∧ Works (m.welcomed S t.now) (new.foldr (react S t random) m) := by
  induction new with
  | nil => exact .inl ⟨by simp, .refl m⟩
  | cons o new ih =>
    have hrest := ih fun o ho => h o (List.mem_cons_of_mem _ ho)
    by_cases ho : o.isHeard = true
    · obtain rfl := h o List.mem_cons_self ho
      refine .inr ⟨List.mem_cons_self, ?_⟩
      have honce : Works ((new.foldr (react S t random) m).welcomed S t.now)
          ((.onConnected :: new).foldr (react S t random) m) :=
        onConnected_works t.now _
      rcases hrest with ⟨-, hworks⟩ | ⟨-, hworks⟩
      · exact (hworks.welcomed t.now).trans honce
      · exact (hworks.welcomed t.now).trans honce
    · have hworks := react_works (S := S) random (Bool.eq_false_of_not_eq_true ho) t (new.foldr (react S t random) m)
      rcases hrest with ⟨hnone, hrest⟩ | ⟨hmem, hrest⟩
      · refine .inl ⟨fun o' ho' => ?_, hrest.trans hworks⟩
        rcases List.mem_cons.mp ho' with rfl | ho'
        · exact Bool.eq_false_of_not_eq_true ho
        · exact hnone o' ho'
      · exact .inr ⟨List.mem_cons_of_mem _ hmem, hrest.trans hworks⟩

theorem hear_loss {new later : List Out} (hnew : ∀ o ∈ new, o.isHeard = false) (hlater : ∀ o ∈ later, o.isHeard = false)
    (t : St) (m : Manager) :
    Works (m.parted t.stopping) ((later ++ .onDisconnected :: new).foldr (react S t random) m) := by
  rw [List.foldr_append, List.foldr_cons]
  exact (((hear_nothing hnew t m).parted t.stopping).trans (onDisconnected_works t.stopping _)).trans
    (hear_nothing hlater t _)

/-- What a manager `m` and its client, in the state `s`, have come to. -/
inductive Hears (S : Settings) (s : St) (m : Manager) (t : St) (n : Manager) : Prop
  | nothing (h : Hushed s t) (hm : Works m n)
  | session (h : Told s t) {a : Nat} (hc : t.conn = some a) (hconf : (t.uris a).stratumModeConfirmed = true)
    (hlog : .onConnected ∈ t.log) (hm : Works (m.welcomed S t.now) n)
  | loss (h : Leaves s t) (hm : Works (m.parted s.stopping) n)

theorem news_eq (new : List Out) (h : t.log = new ++ p.st.log) : p.news t = new := by
  rw [Pool.news, h, List.length_append, Nat.add_sub_cancel, List.take_left]

theorem hears_of_seen (hlog : s.log = p.st.log) (h : Seen s t) :
    Hears S s p.toManager t (p.hearing S random t).toManager := by
  rcases h with h | h
  · obtain ⟨new, hnew, hheard⟩ := h.log
    have hnews := news_eq new (hlog ▸ hnew)
    rcases hear_session (S := S) random (fun o ho hh => (hheard o ho hh).1) t p.toManager with
      ⟨hnone, hworks⟩ | ⟨hmem, hworks⟩
    · refine .nothing ⟨h.toStays, new, hnew, hnone⟩ ?_
      rw [Pool.hearing, hnews]
      exact hworks
    · obtain ⟨-, a, ha, hconf⟩ := hheard _ hmem rfl
      refine .session h ha hconf (hnew ▸ List.mem_append_left _ hmem) ?_
      rw [Pool.hearing, hnews]
      exact hworks
  · obtain ⟨new, later, hlog', hnew, hlater⟩ := h.log
    refine .loss h ?_
    rw [Pool.hearing, news_eq (later ++ .onDisconnected :: new) (by rw [hlog', hlog]), ← h.stopping]
    exact hear_loss hnew hlater t _

/-! ## A new client -/

structure Rebound (b : Nat) (s t : St) : Prop where
  conn : t.conn = some b
  log : t.log = .setConnection b :: s.log
  queue : ∃ new, t.queue = s.queue.filter Handler.ofManager ++ new ∧ ∀ k ∈ new, k.isRotate = false
  uris : t.uris = (s.updateUri b fun u => { u with responds := false }).uris
  stopping : t.stopping = s.stopping
  crashed : t.crashed = s.crashed

theorem Rebound.own {b : Nat} {u : St} (h : Rebound b s t) (hu : Own t u) (hcrash : u.crashed = t.crashed) :
    Rebound b s u where
  conn := hu.conn.trans h.conn
  log := hu.log.trans h.log
  queue := by
    obtain ⟨x, hx, hxr⟩ := h.queue
    obtain ⟨y, hy, hyo⟩ := hu.queue
    refine ⟨x ++ y, by rw [hy, hx, List.append_assoc], fun k hk => ?_⟩
    rcases List.mem_append.mp hk with hk | hk
    · exact hxr k hk
    · exact isRotate_of_ofManager (hyo k hk).2
  uris := hu.uris.trans h.uris
  stopping := hu.stopping.trans h.stopping
  crashed := hcrash.trans h.crashed

theorem rebound_of_rotate {b : Nat} {delayed : Bool} (hc : (s.started && s.isConnected) = false) :
    Rebound b s (call (rotateConnect (some (b, delayed))) s) := by
  have hstart : Rebound b s (s.rebound b) :=
    ⟨rfl, rfl, ⟨[], by simp [St.rebound, St.newClient, St.updateUri], by simp⟩, rfl, rfl, rfl⟩
  refine call_of_wp (wp_rotateConnect.mpr ?_)
  rw [if_neg (by simp [hc])]
  cases delayed with
  | true => exact hstart.own (.of_same rfl rfl rfl rfl rfl id (Nat.le_refl _)) rfl
  | false =>
    refine wp_connect.mpr ?_
    have hown := (dialing_own (s.rebound b) b).trans (resolving_own _ ((s.rebound b).uris b))
    refine hstart.own hown ?_
    unfold St.resolving
    split <;> rfl

theorem Rebound.hearing {b : Nat} (h : Rebound b s t) (hlog : s.log = p.st.log) :
    p.hearing S random t = { p with st := t } := by
  rw [Pool.hearing, news_eq [.setConnection b] (by rw [h.log, hlog]; rfl)]
  rfl

/-! ## Steps -/

def Ev.selects (S : Settings) (m : Manager) : Ev → Option Nat
  | .setActiveConnection idx => if idx < m.connections.length then some idx else none
  | .setActiveConnectionUri connstring => m.connections.findIdx? fun a => iequals (S.str a) connstring
  | _ => none

def Ev.isCall : Ev → Bool
  | addConnection _ | removeConnection _ | setActiveConnection _ | setActiveConnectionUri _ | stop => true
  | _ => false

structure Next (p : Pool) (k : Handler) (queue : List Handler) : Prop where
  due : p.tasks.find? Pool.due = none
  queue : p.st.queue = k :: queue

inductive Acted (E : Env) (S : Settings) (p : Pool) : Ev → Pool → Prop
  /-- A handler of the client's, or the reconnect timer's. -/
  | handler {random : UInt64} {k : Handler} {queue : List Handler} {t : St} (hnext : Next p k queue)
    (hk : k.isRotate = false) (h : Fired E p.st (.run none) t) :
    Acted E S p (.run random) ((p.passed false).hearing S random t)
  /-- The reconnect timer's when the manager has stopped, or `rotateConnect` while connected. -/
  | skip {random : UInt64} {k : Handler} {queue : List Handler} (hnext : Next p k queue)
    (h : k.isRotate = true → (p.st.started && p.st.isConnected) = true) :
    Acted E S p (.run random) { p.passed false with st := { p.st with queue } }
  | exits {random : UInt64} {queue : List Handler} {m : Manager} (hnext : Next p .rotateConnect queue)
    (hc : (p.st.started && p.st.isConnected) = false) (hm : p.rotateConnect S p.st.uris = some (m, none)) :
    Acted E S p (.run random) { p.passed false with toManager := m, st := { p.st with queue } }
  | attempts {random : UInt64} {queue : List Handler} {m : Manager} {b : Nat} {delayed : Bool}
    (hnext : Next p .rotateConnect queue) (hc : (p.st.started && p.st.isConnected) = false)
    (hm : p.rotateConnect S p.st.uris = some (m, some (b, delayed))) :
    Acted E S p (.run random) { p.passed true with
      toManager := m, st := call (Stratum.rotateConnect (some (b, delayed))) { p.st with queue } }
  /-- The manager's index is out of bounds. -/
  | fails {random : UInt64} {queue : List Handler} (hnext : Next p .rotateConnect queue)
    (hm : p.rotateConnect S p.st.uris = none) :
    Acted E S p (.run random) { p with st := { p.st with crashed := some (.exception .outOfRange) } }
  | failover {random : UInt64} {n : Nat} {t : St} (hdue : p.tasks.find? Pool.due = some (n, .failovertimerElapsed))
    (hm : p.failovertimerElapsed.2 = true) (h : Fired E p.st .callDisconnect t) :
    Acted E S p (.run random)
      ({ p with tasks := p.tasks.eraseP Pool.due, toManager := p.failovertimerElapsed.1 }.hearing S 0 t)
  /-- A task that comes to nothing. -/
  | idle {random : UInt64} {n : Nat} {task : Task} (hdue : p.tasks.find? Pool.due = some (n, task))
    (h : task = .failovertimerElapsed → p.failovertimerElapsed.2 = false) :
    Acted E S p (.run random) { p with tasks := p.tasks.eraseP Pool.due }
  /-- A solution found for the work of `solution`. -/
  | submits {random : UInt64} {n : Nat} {solution : Solution} {mixHash : H256} {t : St}
    (hdue : p.tasks.find? Pool.due = some (n, .submitProofAsync solution))
    (h : Fired E p.st (.submitSolution { solution with mixHash }) t) :
    Acted E S p (.run random) ({ p with tasks := p.tasks.eraseP Pool.due }.hearing S 0 t)
  | completes {e : Stratum.Ev} {t : St} (he : e.isCompletion = true) (h : Fired E p.st e t) :
    Acted E S p (.completes e) (p.hearing S 0 t)
  | failoverExpires {t : Nat} (ht : p.failovertimer = some t) :
    Acted E S p .failovertimerExpires ({ p with failovertimer := none }.post .failovertimerElapsed)
  | adds {a : Nat} : Acted E S p (.addConnection (.ok a)) { p with connections := p.connections ++ [a] }
  | removes {idx : Nat} (hpending : p.asyncPending = false) (hidx : idx < p.connections.length)
    (hne : idx ≠ p.activeConnectionIdx) : Acted E S p (.removeConnection idx) { p with toManager := p.removed idx }
  | selects {e : Ev} {idx : Nat} {t : St} (he : e.selects S p.toManager = some idx) (hpending : p.asyncPending = false)
    (hne : idx ≠ p.activeConnectionIdx) (h : Fired E p.st .callDisconnect t) :
    Acted E S p e ({ p with toManager := p.switchedTo idx }.hearing S 0 t)
  /-- The entry selected is the active one. -/
  | reselects {e : Ev} {idx : Nat} (he : e.selects S p.toManager = some idx) (hpending : p.asyncPending = false)
    (hidx : idx = p.activeConnectionIdx) : Acted E S p e p
  /-- The call throws, or there is nothing to stop. -/
  | refuses {e : Ev} (he : e.isCall = true) (hs : ∀ idx, e.selects S p.toManager = some idx → p.asyncPending = true)
    (hstop : e = .stop → p.running = false) : Acted E S p e p
  | stops {t : St} (hrun : p.running = true) (h : Fired E p.st .stop t) :
    Acted E S p .stop ({ p with toManager := p.toManager.stop (p.st.started && p.st.isConnected) }.hearing S 0 t)
  | hashrate {rate : UInt64} {id : String} {t : St} (h : Fired E p.st (.submitHashrate rate id) t) :
    Acted E S p (.submitHashrate rate id) (p.hearing S 0 t)
  | fetch {miner : Nat} {m : Miner} (hm : p.farm.miners[miner]? = some m) (hwork : m.work.header ≠ .zero 32) :
    Acted E S p (.fetch miner) { p with searching := (miner, m.work) :: p.searching.filter (·.1 ≠ miner) }
  | found {miner : Nat} {nonce : UInt64} {mixHash : H256} {work : WorkPackage}
    (hwork : p.searching.lookup miner = some work) :
    Acted E S p (.found miner nonce mixHash) (p.post (.submitProofAsync { nonce, mixHash, work, midx := miner }))
  | leave {miner : Nat} : Acted E S p (.leave miner) { p with searching := p.searching.filter (·.1 ≠ miner) }

theorem client_cases {e : Stratum.Ev} (h : p.client E S random e = some q) :
    ∃ t, Fired E p.st e t ∧ q = p.hearing S random t := by
  obtain ⟨t, ht, rfl⟩ := Option.map_eq_some_iff.mp h
  exact ⟨t, fire_cases ht, rfl⟩

theorem hearing_same (hlog : t.log = p.st.log) : p.hearing S random t = { p with st := t } := by
  rw [Pool.hearing, news_eq [] (by rw [hlog]; rfl)]
  rfl

theorem rotateConnect_none (s : St) : call (Stratum.rotateConnect none) s = s := by
  have h : wp (Stratum.rotateConnect none) (fun _ t => t = s) (fun _ _ => False) s := by
    rw [wp_rotateConnect]
    split <;> rfl
  exact call_of_wp (wp_mono h (fun _ _ => id) fun _ _ => False.elim)

theorem client_rotates {queue : List Handler} {choice : Option (Nat × Bool)} {r : Pool}
    (h : r.client E S random (.run choice) = some q) (hr : r.st = p.st) (hq : p.st.queue = .rotateConnect :: queue) :
    q = r.hearing S random (call (Stratum.rotateConnect choice) { p.st with queue }) := by
  obtain ⟨t, ht, rfl⟩ := Option.map_eq_some_iff.mp h
  simp only [fire, hr, hq, Option.some.injEq] at ht
  rw [← ht]
  rfl

theorem rotate_acted {queue : List Handler} (hnext : Next p .rotateConnect queue) (h : p.rotate E S random = some q) :
    Acted E S p (.run random) q := by
  unfold Pool.rotate at h
  split at h
  case isTrue hc =>
    rw [client_rotates (p := p) h rfl hnext.queue, rotateConnect_none, hearing_same]
    · exact .skip hnext fun _ => hc
    · rfl
  case isFalse hc =>
    have hc := Bool.eq_false_of_not_eq_true hc
    split at h
    case h_1 hm =>
      cases h
      exact .fails hnext hm
    case h_2 m choice hm =>
      rw [client_rotates (p := p) h rfl hnext.queue]
      cases choice with
      | none =>
        rw [rotateConnect_none, hearing_same]
        · exact .exits hnext hc hm
        · rfl
      | some choice =>
        obtain ⟨b, delayed⟩ := choice
        have hrebound : Rebound b { p.st with queue }
            (call (Stratum.rotateConnect (some (b, delayed))) { p.st with queue }) :=
          rebound_of_rotate hc
        rw [hrebound.hearing]
        · exact .attempts hnext hc hm
        · rfl

theorem runHandler_acted (hdue : p.tasks.find? Pool.due = none) (h : p.runHandler E S random = some q) :
    Acted E S p (.run random) q := by
  unfold Pool.runHandler at h
  split at h
  case h_1 => cases h
  case h_2 queue hq => exact rotate_acted ⟨hdue, hq⟩ h
  case h_3 queue hq =>
    split at h
    · obtain ⟨t, ht, rfl⟩ := client_cases h
      exact .handler ⟨hdue, hq⟩ rfl ht
    · cases h
      exact .skip ⟨hdue, hq⟩ nofun
  case h_4 k queue hrotate _ hq =>
    obtain ⟨t, ht, rfl⟩ := client_cases h
    refine .handler ⟨hdue, hq⟩ ?_ ht
    cases k <;> first | rfl | exact (hrotate rfl).elim

theorem runTask_acted {n : Nat} {task : Task} (hdue : p.tasks.find? Pool.due = some (n, task))
    (h : { p with tasks := p.tasks.eraseP Pool.due }.runTask E S task = some q) : Acted E S p (.run random) q := by
  cases task with
  | failovertimerElapsed =>
    simp only [Pool.runTask, Pool.switched] at h
    split at h
    case isTrue hm =>
      obtain ⟨t, ht, rfl⟩ := client_cases h
      exact .failover hdue hm ht
    case isFalse hm =>
      have hsame : p.failovertimerElapsed.1 = p.toManager := by
        unfold Manager.failovertimerElapsed at hm ⊢
        split <;> simp_all
      cases h
      rw [hsame]
      exact .idle hdue fun _ => Bool.eq_false_of_not_eq_true hm
  | submitProofAsync solution =>
    have hsolution : ∀ mixHash,
        { p with tasks := p.tasks.eraseP Pool.due }.onSolutionFound E S { solution with mixHash } =
        some q → Acted E S p (.run random) q := by
      intro mixHash h
      unfold Pool.onSolutionFound at h
      split at h
      · obtain ⟨t, ht, rfl⟩ := client_cases h
        exact .submits hdue ht
      · cases h
        exact .idle hdue nofun
    simp only [Pool.runTask, Pool.submitProofAsync] at h
    split at h
    · exact hsolution solution.mixHash h
    · split at h
      · cases h
        exact .idle hdue nofun
      · exact hsolution _ h

/-- Both forms of `setActiveConnection`: the entry is found, or the call throws. -/
theorem requestSwitch_acted {e : Ev} {call : P Bool} (he : e.isCall = true) (hstop : e ≠ .stop)
    (hcall : (∃ idx, e.selects S p.toManager = some idx ∧
        call.exec p.toManager = (setActiveConnectionCommon idx).exec p.toManager) ∨
      e.selects S p.toManager = none ∧ ∃ what, call.exec p.toManager = (.error what, p.toManager))
    (h : p.requestSwitch E S call = some q) : Acted E S p e q := by
  unfold Pool.requestSwitch at h
  rcases hcall with ⟨idx, hidx, hcall⟩ | ⟨hnone, what, hcall⟩
  · rw [hcall] at h
    split at h
    case h_1 disconnects m hexec =>
      obtain ⟨hpending, ⟨hne, rfl, rfl⟩ | ⟨hsame, rfl, rfl⟩⟩ := setActiveConnectionCommon_ok hexec
      · obtain ⟨t, ht, rfl⟩ := client_cases h
        exact .selects hidx hpending hne ht
      · cases h
        exact .reselects hidx hpending hsame
    case h_2 what m hexec =>
      obtain rfl := setActiveConnectionCommon_throws hexec
      cases h
      refine .refuses he (fun _ _ => ?_) fun h => absurd h hstop
      rw [setActiveConnectionCommon_exec] at hexec
      by_contra hpending
      rw [if_neg hpending] at hexec
      split at hexec <;> cases hexec
  · rw [hcall] at h
    cases h
    exact .refuses he (by simp [hnone]) fun h => absurd h hstop

theorem request_acted {e : Ev} {call : P Unit} (he : e.isCall = true) (hstop : e ≠ .stop)
    (hs : e.selects S p.toManager = none)
      (hthrows : ∀ what n, call.exec p.toManager = (.error what, n) → n = p.toManager)
    (hok : ∀ n, call.exec p.toManager = (.ok (), n) → Acted E S p e { p with toManager := n }) :
    Acted E S p e (p.request call) := by
  unfold Pool.request
  rcases hcall : call.exec p.toManager with ⟨what | _, n⟩
  · rw [show (_, n).2 = p.toManager from hthrows what n hcall]
    exact .refuses he (by simp [hs]) fun h => absurd h hstop
  · exact hok n hcall

theorem addConnection_acted (uri : Except String Nat) :
    Acted E S p (.addConnection uri) (p.request (Pools.addConnection uri)) := by
  refine request_acted rfl Ev.noConfusion rfl (fun _ _ => addConnection_throws) fun n hn => ?_
  cases uri with
  | error what => cases hn
  | ok a =>
    cases hn
    exact .adds

theorem removeConnection_acted (idx : Nat) :
    Acted E S p (.removeConnection idx) (p.request (Pools.removeConnection idx)) := by
  refine request_acted rfl Ev.noConfusion rfl (fun _ _ => removeConnection_throws) fun n hn => ?_
  rw [removeConnection_exec] at hn
  split at hn
  case isTrue => cases hn
  case isFalse hpending =>
    split at hn
    case isTrue => cases hn
    case isFalse hbounds =>
      split at hn
      case isTrue => cases hn
      case isFalse hactive =>
        cases hn
        exact .removes (Bool.eq_false_of_not_eq_true hpending) (by omega) hactive

theorem acted_of_step {e : Ev} (h : step E S p e = some q) : p.st.crashed = none ∧ Acted E S p e q := by
  unfold step at h
  split at h
  case isTrue => cases h
  case isFalse hcrash =>
    refine ⟨by simpa using hcrash, ?_⟩
    cases e with
    | run random =>
      simp only [act, Pool.runNext] at h
      split at h
      case h_1 n task hdue => exact runTask_acted hdue h
      case h_2 hdue => exact runHandler_acted hdue h
    | completes e =>
      simp only [act] at h
      split at h
      case isTrue he =>
        obtain ⟨t, ht, rfl⟩ := client_cases h
        exact .completes he ht
      case isFalse => cases h
    | failovertimerExpires =>
      simp only [act] at h
      split at h
      case h_1 t ht =>
        split at h
        · cases h
          exact .failoverExpires ht
        · cases h
      case h_2 => cases h
    | addConnection uri =>
      cases h
      exact addConnection_acted uri
    | removeConnection idx =>
      cases h
      exact removeConnection_acted idx
    | setActiveConnection idx =>
      refine requestSwitch_acted rfl Ev.noConfusion ?_ h
      rw [setActiveConnection_exec, Ev.selects]
      by_cases hidx : idx < p.connections.length
      · exact .inl ⟨idx, if_pos hidx, if_neg (by omega)⟩
      · exact .inr ⟨if_neg hidx, _, if_pos (by omega)⟩
    | setActiveConnectionUri connstring =>
      refine requestSwitch_acted rfl Ev.noConfusion ?_ h
      rw [setActiveConnectionUri_exec, Ev.selects]
      cases p.connections.findIdx? fun a => iequals (S.str a) connstring with
      | none => exact .inr ⟨rfl, _, rfl⟩
      | some idx => exact .inl ⟨idx, rfl, rfl⟩
    | stop =>
      simp only [act, Pool.stop] at h
      split at h
      case isTrue hrun =>
        obtain ⟨t, ht, rfl⟩ := client_cases h
        exact .stops hrun ht
      case isFalse hrun =>
        cases h
        exact .refuses rfl (by simp [Ev.selects]) fun _ => Bool.eq_false_of_not_eq_true hrun
    | submitHashrate rate id =>
      obtain ⟨t, ht, rfl⟩ := client_cases h
      exact .hashrate ht
    | fetch miner =>
      simp only [act] at h
      split at h
      case h_1 m hm =>
        split at h
        · cases h
        · cases h
          exact .fetch hm ‹_›
      case h_2 => cases h
    | found miner nonce mixHash =>
      obtain ⟨work, hwork, rfl⟩ := Option.map_eq_some_iff.mp h
      exact .found hwork
    | leave miner =>
      cases h
      exact .leave

end CoreMiner.Pools
