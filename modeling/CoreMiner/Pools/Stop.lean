/-
  CoreMiner.Pools.Stop — what `stop` ends (`PoolManager.cpp`: `stop`, `setClientHandlers`;
  `XcbStratumClient.cpp`: `disconnect_finalize`).

  From a client that nothing wakes any more (`Dormant`) no session starts, and it stays so
  whatever happens next. Called on a client that has a session in a mode that is settled,
  or that is not connecting, `stop` leaves such a client behind: in the runs where it is
  only called then (`Quiet`), no session starts and the farm does not start to mine once
  `m_stopping` is set (`stop_final`).

  `stop` cancels the timers, but no connection attempt: one that is under way completes,
  and its login starts a session and the farm (`session_after_stop`).
-/

import CoreMiner.Pools.Shares

namespace CoreMiner.Pools

open DevCore EthCore Lib Prog Stratum

variable {E : Env} {S : Settings} {m : Manager} {s t : St} {p q : Pool} {a : Nat}

/-! ## A client that nothing wakes -/

def wakes : Handler → Bool
  | .startConnect | .resolveHandler _ | .connectHandler .. | .onRecvSocketDataCompleted (some _) | .processResponse _
  | .rotateConnect | .reconnectTimerElapsed => true
  | _ => false

/-- No connection attempt is under way, and the loss of the connection starts none. -/
structure Unattempted (s : St) : Prop where
  queue : ∀ k ∈ s.queue, wakes k = false
  resolves : s.resolves = 0
  connects : s.connects = 0
  settled : ∀ a, s.conn = some a → retriesNextMode (s.uris a) = false

structure Drowsy (s : St) : Prop extends Unattempted s where
  stopping : s.stopping = true
  reconnect : s.reconnectPending = false
  connected : s.connected = false

structure Dormant (s : St) : Prop extends Drowsy s where
  reads : s.reads = 0

theorem aborting_wakes (h : s.connects = 0) : ∀ k ∈ s.aborting, wakes k = false := by
  intro k hk
  simp only [St.aborting, List.mem_append, List.mem_replicate, h] at hk
  rcases hk with ((⟨-, rfl⟩ | ⟨-, rfl⟩) | ⟨hne, -⟩) | ⟨-, rfl⟩
  · rfl
  · rfl
  · exact absurd rfl hne
  · rfl

theorem Unattempted.posted (h : Unattempted s) {new : List Handler} (hnew : ∀ k ∈ new, wakes k = false) :
    ∀ k ∈ s.queue ++ new, wakes k = false := fun k hk => (List.mem_append.mp hk).elim (h.queue k) (hnew k)

theorem Drowsy.aborted (h : Drowsy s) : Dormant s.aborted :=
  { h with queue := h.posted (aborting_wakes h.connects), connects := rfl, reads := rfl }

theorem Drowsy.closed (h : Drowsy s) : Dormant s.closed := { h.aborted with }

theorem Dormant.push (h : Dormant s) {k : Handler} (hk : wakes k = false) : Dormant (s.push k) :=
  { h with queue := h.posted (by simpa using hk) }

theorem Dormant.armed (h : Dormant s) (wait : Wait) : Dormant (s.armed wait) := by
  refine { h with queue := ?_ }
  show ∀ k ∈ (if s.timer.isSome then s.queue ++ [.workloopTimerElapsed true] else s.queue), wakes k = false
  split
  · exact h.posted (by simp [wakes])
  · exact h.queue

theorem Dormant.sent (h : Dormant s) (ht : Sent s t) : Dormant t := by
  obtain ⟨_, _, _, _, _, rfl⟩ := ht
  exact { h with }

/-- `disconnect_finalize` reports, and no other mode is tried. -/
theorem Drowsy.finalized (h : Drowsy s) (hc : s.conn = some a) : Dormant (s.finalized a) := by
  have hreported : s.finalized a = (s.released a).reported := by
    rw [St.finalized, if_neg (by simp [h.settled a hc])]
  rw [hreported]
  have hclosed : Dormant s.closed := h.closed
  have harmed : ∀ k ∈ (s.closed.armed .forever).queue, wakes k = false := (hclosed.armed .forever).queue
  have hstopping : (s.released a).stopping = true := h.stopping
  have hqueue : (s.released a).reported.queue = (s.closed.armed .forever).queue := by
    rw [St.reported, hstopping]
    exact List.append_nil _
  exact { hclosed with queue := hqueue ▸ harmed, settled := fun _ hnone => by cases hnone }

/-! ## It stays so -/

abbrev Sleeps (m : M Unit) (s : St) : Prop := wp m (fun _ t => Dormant t) (fun _ _ => True) s

theorem call_sleeps {m : M Unit} (h : Sleeps m s) (hrun : (call m s).crashed = none) : Dormant (call m s) := by
  refine call_of_wp (P := fun t => t.crashed = none → Dormant t)
    (wp_mono h (fun _ _ h _ => h) fun _ _ _ hcrash => ?_) hrun
  cases hcrash

theorem disconnectFinalize_sleeps (h : Drowsy s) : Sleeps disconnectFinalize s := by
  refine wp_disconnectFinalize.mpr ?_
  split
  case h_1 => trivial
  case h_2 a hc => exact h.finalized hc

theorem shutdownSocket_sleeps (h : Dormant s) : Sleeps shutdownSocket s := by
  refine wp_shutdownSocket.mpr ?_
  split
  case h_1 => trivial
  case h_2 a hc =>
    split
    · exact { h with }
    · exact h.closed.finalized hc

theorem disconnect_sleeps (h : Drowsy s.parting) (hparting : s.disconnecting = true → Dormant s) :
    Sleeps disconnect s := by
  refine wp_disconnect.mpr ?_
  split
  case isTrue hd => exact hparting hd
  case isFalse =>
    split
    · split
      · exact shutdownSocket_sleeps h.aborted
      · trivial
    · exact disconnectFinalize_sleeps h

theorem Dormant.parting (h : Dormant s) : Drowsy s.parting := { h with connected := rfl }

theorem Dormant.isConnected (h : Dormant s) : s.isConnected = false := by simp [St.isConnected, h.connected]

theorem workloopTimerElapsed_sleeps (h : Dormant s) (aborted : Bool) : Sleeps (workloopTimerElapsed E aborted) s := by
  cases aborted with
  | true => exact wp_workloopTimerElapsed_true.mpr h
  | false =>
    cases hc : s.conn with
    | none => exact (wp_workloopTimerElapsed_none hc).mpr h
    | some a =>
      refine wp_workloopTimerElapsed_of hc (fun t ht _ => (h.sent ht).closed) (fun t ht _ => ?_) fun _ _ _ => trivial
      obtain ⟨u, hu, hchecked⟩ := ht
      have hu := h.sent hu
      cases hchecked with
      | on => exact hu.armed _
      | timedOut rest => exact (Dormant.push (s := { u with endpoints := rest, pleas := _ }) { hu with } rfl).armed _
      | answer ho => simp [loginOverdue, hu.isConnected] at ho

theorem onSendSocketDataCompleted_sleeps (h : Dormant s) (ec : Option WriteError) :
    Sleeps (onSendSocketDataCompleted ec) s := by
  have hR : Along fun s t : St => Dormant s → Dormant t := ⟨fun _ => id, fun _ _ _ h h' => h' ∘ h⟩
  have hpost : Kept (fun s t : St => Dormant s → Dormant t) (post .disconnect) := Keeps.modify fun _ h => h.push rfl
  have hkept : Kept (fun s t : St => Dormant s → Dormant t) (onSendSocketDataCompleted ec) := by
    cases ec with
    | none =>
      refine hR.bind (hR.get_bind fun _ => hR.when fun _ => hR.bind hR.getConn fun _ => hR.when fun _ => ?_) fun _ =>
        hR.get_bind fun _ => Keeps.ite (fun _ => ?_) fun _ => ⟨fun s => ?_⟩
      · exact hR.onSession (fun _ _ h => { h with }) _
      · exact Keeps.modify fun _ h => { h with }
      · exact wp_mono (sendSocketData_sent.from_ s) (fun _ _ ht h => h.sent ht)
          fun _ _ ht => ⟨fun h => h.sent ht.1, trivial⟩
    | some ec =>
      refine hR.bind (Keeps.modify fun _ h => ?_) fun _ => hR.bind (hR.when fun _ => hpost) fun _ =>
        hR.get_bind fun _ => hR.when fun _ => hpost
      exact { h with }
  exact wp_mono (hkept.from_ s) (fun _ _ ht => ht h) fun _ _ _ => trivial

/-- Without a connection a failed read is ignored. -/
theorem readFailed_sleeps (h : Dormant s) : Sleeps (onRecvSocketDataCompleted E none) s := by
  simp only [onRecvSocketDataCompleted, wp_bind, wp_get, wp_when, h.isConnected]
  exact h

theorem runHandler_sleeps (h : Dormant s) {k : Handler} (hk : wakes k = false) :
    Sleeps (runHandler E none k) s := by
  cases k with
  | disconnect => exact disconnect_sleeps h.parting fun _ => h
  | disconnectFinalize => exact disconnectFinalize_sleeps h.toDrowsy
  | workloopTimerElapsed aborted => exact workloopTimerElapsed_sleeps h aborted
  | onRecvSocketDataCompleted data =>
    cases data with
    | none => exact readFailed_sleeps (E := E) h
    | some _ => cases hk
  | onSendSocketDataCompleted ec => exact onSendSocketDataCompleted_sleeps h ec
  | onSSLShutdownCompleted => exact wp_onSSLShutdownCompleted.mpr { h with queue := h.posted (by simp [wakes]) }
  | _ => cases hk

theorem Dormant.fired {e : Stratum.Ev} (h : Dormant s) (hf : Fired E s e t)
    (he : ∀ choice, e = .run choice → choice = none)
    (hrun : t.crashed = none) : Dormant t := by
  cases hf with
  | @run choice k queue hq =>
    obtain rfl := he choice rfl
    have hk : ∀ k' ∈ k :: queue, wakes k' = false := hq ▸ h.queue
    have htaken : Dormant { s with queue } := { h with queue := fun k' hk' => hk k' (List.mem_cons_of_mem _ hk') }
    exact call_sleeps (runHandler_sleeps htaken (hk k List.mem_cons_self)) hrun
  | timerExpires _ _ | written _ | writeFails _ | shutdownCompletes _ =>
    refine Dormant.push ?_ rfl
    exact { h with }
  | resolved hpos => exact absurd h.resolves hpos.ne'
  | connectCompletes hpos => exact absurd h.connects hpos.ne'
  | received hpos _ => exact absurd h.reads hpos.ne'
  | readFails hpos => exact absurd h.reads hpos.ne'
  | reconnectTimerExpires hp => exact absurd (h.reconnect.symm.trans hp) nofun
  | advance => exact { h with }
  | callDisconnect _ => exact call_sleeps (disconnect_sleeps h.parting fun _ => h) hrun
  | stopConnected _ hc => exact absurd (h.isConnected.symm.trans hc) nofun
  | stopUnconnected _ => exact { h with stopping := rfl, reconnect := rfl }
  | submitSolution hc => exact absurd (h.isConnected.symm.trans hc) nofun
  | submitHashrate hc => exact absurd (h.isConnected.symm.trans hc) nofun

theorem Dormant.mute {e : Stratum.Ev} (h : Dormant s) (hf : Fired E s e t)
    (he : ∀ choice, e = .run choice → choice = none) :
    ∃ new, t.log = new ++ s.log ∧ Out.onConnected ∉ new := by
  have hparts : ∀ {s : St}, Parts s t → ∃ new, t.log = new ++ s.log ∧ Out.onConnected ∉ new := by
    rintro s (h | h)
    · obtain ⟨new, hlog, hnew⟩ := h.log
      exact ⟨new, hlog, fun hmem => absurd (hnew _ hmem) nofun⟩
    · obtain ⟨new, later, hlog, hnew, hlater⟩ := h.log
      refine ⟨later ++ .onDisconnected :: new, hlog, fun hmem => ?_⟩
      rcases List.mem_append.mp hmem with hmem | hmem
      · exact absurd (hlater _ hmem) nofun
      · rcases List.mem_cons.mp hmem with hmem | hmem
        · cases hmem
        · exact absurd (hnew _ hmem) nofun
  by_cases hcompletion : e.isCompletion = true
  · exact hparts (.inl (hf.completion_hushed hcompletion))
  · cases hf with
    | @run choice k queue hq =>
      have hk : wakes k = false := h.queue k (hq ▸ List.mem_cons_self)
      have hrotate : k.isRotate = false ∧ k.listens = false := by
        cases k <;> first | exact ⟨rfl, rfl⟩ | cases hk | skip
        case onRecvSocketDataCompleted data => cases data <;> first | exact ⟨rfl, rfl⟩ | cases hk
      exact hparts (s := { s with queue }) (runHandler_parts choice hrotate.1 hrotate.2 _)
    | callDisconnect _ => exact hparts (call_parts (disconnect_kept parts_lenient.reserved) s)
    | stopConnected _ hc => exact absurd (h.isConnected.symm.trans hc) nofun
    | stopUnconnected _ => exact ⟨[], rfl, List.not_mem_nil⟩
    | submitSolution hc => exact absurd (h.isConnected.symm.trans hc) nofun
    | submitHashrate hc => exact absurd (h.isConnected.symm.trans hc) nofun
    | _ => exact absurd rfl hcompletion

/-! ## The farm -/

theorem stop_isMining (f : Farm) : f.stop.isMining = false := by
  unfold Farm.stop
  split
  · rfl
  · exact Bool.eq_false_of_not_eq_true ‹_›

theorem react_mining {random : UInt64} {o : Out} (ho : o ≠ .onConnected)
    (h : (react S t random o m).farm.isMining = true) : m.farm.isMining = true := by
  cases o with
  | onConnected => exact absurd rfl ho
  | onDisconnected =>
    have h : (m.onDisconnected t.stopping).farm.isMining = true := h
    unfold Manager.onDisconnected at h
    split at h
    · exact absurd ((stop_isMining _).symm.trans h) nofun
    · exact h
  | onWorkReceived wp =>
    rcases onWorkReceived_farm S _ random wp m with hsame | ⟨_, _, hset⟩
    · exact hsame ▸ h
    · exact (setWork_miners hset).1.symm.trans h
  | _ => exact h

theorem hear_mining {random : UInt64} {new : List Out} (hnew : Out.onConnected ∉ new)
    (h : (new.foldr (react S t random) m).farm.isMining = true) : m.farm.isMining = true := by
  induction new with
  | nil => exact h
  | cons o new ih =>
    refine ih (fun hmem => hnew (List.mem_cons_of_mem _ hmem)) (react_mining (fun ho => hnew ?_) h)
    exact ho ▸ List.mem_cons_self

/-- No session starts between the two states, and the farm does not start to mine. -/
def Over (p q : Pool) : Prop := .onConnected ∉ p.news q.st ∧ (q.farm.isMining = true → p.farm.isMining = true)

theorem Over.of_same (hlog : q.st.log = p.st.log) (hfarm : q.farm.isMining = true → p.farm.isMining = true) :
    Over p q := by
  refine ⟨?_, hfarm⟩
  rw [news_eq [] (by rw [hlog]; rfl)]
  exact List.not_mem_nil

theorem Dormant.over {r : Pool} {random : UInt64} {e : Stratum.Ev} (h : Dormant p.st) (hr : r.st = p.st)
    (hfarm : r.farm.isMining = true → p.farm.isMining = true) (hf : Fired E p.st e t)
    (he : ∀ choice, e = .run choice → choice = none) : Over p (r.hearing S random t) := by
  obtain ⟨new, hlog, hnew⟩ := h.mute hf he
  constructor
  · show Out.onConnected ∉ p.news t
    rw [news_eq new hlog]
    exact hnew
  · rw [Pool.hearing, news_eq (p := r) new (by rw [hlog, hr])]
    exact fun hmining => hfarm (hear_mining hnew hmining)

/-! ## Runs -/

def Ev.isStop : Ev → Bool
  | stop => true
  | _ => false

/-- When `stop` is called, no connection attempt is under way; the client has a session, or
    is not connected at all. -/
def Quiet (p : Pool) (e : Ev) : Prop := e.isStop = true → p.running = true → Unattempted p.st ∧
  (p.st.started = true ∧ p.st.isConnected = true ∧ p.st.reconnectPending = false ∨ p.st.connected = false ∧
    p.st.reads = 0)

instance (s : St) : Decidable (Unattempted s) :=
  decidable_of_iff ((∀ k ∈ s.queue, wakes k = false) ∧ s.resolves = 0 ∧ s.connects = 0 ∧
      ∀ a ∈ s.conn, retriesNextMode (s.uris a) = false)
    ⟨fun ⟨hqueue, hresolves, hconnects, hsettled⟩ => ⟨hqueue, hresolves, hconnects, hsettled⟩,
      fun h => ⟨h.queue, h.resolves, h.connects, h.settled⟩⟩

instance (p : Pool) (e : Ev) : Decidable (Quiet p e) := inferInstanceAs (Decidable (_ → _ → _))

theorem stopped_dormant (hu : Unattempted s)
    (hc : s.started = true ∧ s.isConnected = true ∧ s.reconnectPending = false ∨ s.connected = false ∧ s.reads = 0)
    (hf : Fired E s .stop t) (hrun : t.crashed = none) : Dormant t := by
  cases hf with
  | stopConnected _ hconnected =>
    have hreconnect : s.reconnectPending = false := by
      rcases hc with ⟨-, -, h⟩ | ⟨h, -⟩
      · exact h
      · simp [St.isConnected, h] at hconnected
    refine call_sleeps (disconnect_sleeps ?_ fun hd => ?_) hrun
    · exact { hu with stopping := rfl, reconnect := hreconnect, connected := rfl }
    · have hd : s.disconnecting = true := hd
      simp [St.isConnected, St.isPendingState, hd] at hconnected
  | stopUnconnected hconnected =>
    rcases hc with ⟨hstarted, h, -⟩ | ⟨hclosed, hreads⟩
    · cases (hconnected hstarted).symm.trans h
    · exact { hu with stopping := rfl, reconnect := rfl, connected := hclosed, reads := hreads }

theorem Acted.stopping {e : Ev} (h : Acted E S p e q) (hq : q.st.stopping = true) :
    p.st.stopping = true ∨ e = .stop ∧ p.running = true ∧ Fired E p.st .stop q.st := by
  have hseen : ∀ {e : Stratum.Ev} {t : St}, Fired E p.st e t → e.rotates p.st = false → t.stopping = true →
      (p.st.taken e).stopping = true := fun hf hr ht =>
    (hf.seen hr).elim (fun h => h.stopping.symm.trans ht) fun h => h.stopping.symm.trans ht
  cases h with
  | handler hnext hk hf => exact .inl (hseen hf (by simp [Stratum.Ev.rotates, hnext.queue, hk]) hq)
  | @attempts _ queue _ b delayed _ hc _ =>
    have hrebound : Rebound b { p.st with queue }
        (call (Stratum.rotateConnect (some (b, delayed))) { p.st with queue }) :=
      rebound_of_rotate hc
    exact .inl (hrebound.stopping.symm.trans hq)
  | failover _ _ hf => exact .inl (hseen hf rfl hq)
  | submits _ hf => exact .inl (hseen hf rfl hq)
  | @completes e _ he hf =>
    have := hseen hf (by cases e <;> first | rfl | cases he) hq
    cases e <;> first | exact .inl this | cases he
  | selects _ _ _ hf => exact .inl (hseen hf rfl hq)
  | hashrate hf => exact .inl (hseen hf rfl hq)
  | stops hrun hf => exact .inr ⟨rfl, hrun, hf⟩
  | _ => exact .inl hq

/-- A handler that is next wakes nothing. -/
theorem Dormant.next {k : Handler} {queue : List Handler} (h : Dormant p.st) (hnext : Next p k queue) :
    wakes k = false :=
  h.queue k (hnext.queue ▸ List.mem_cons_self)

theorem Dormant.acted {e : Ev} (h : Dormant p.st) (ha : Acted E S p e q) :
    Over p q ∧ (q.st.crashed = none → Dormant q.st) := by
  have hfired : ∀ {r : Pool} {random : UInt64} {e : Stratum.Ev} {t : St}, r.st = p.st →
      (r.farm.isMining = true → p.farm.isMining = true) → Fired E p.st e t →
        (∀ choice, e = .run choice → choice = none) →
      Over p (r.hearing S random t) ∧ (t.crashed = none → Dormant t) := fun hr hfarm hf he =>
    ⟨h.over hr hfarm hf he, h.fired hf he⟩
  cases ha with
  | handler _ _ hf => exact hfired rfl id hf fun _ hrun => by cases hrun; rfl
  | @skip _ k queue hnext _ =>
    have hqueue : ∀ k' ∈ k :: queue, wakes k' = false := hnext.queue ▸ h.queue
    exact ⟨.of_same rfl id, fun _ => { h with queue := fun k' hk' => hqueue k' (List.mem_cons_of_mem _ hk') }⟩
  | exits hnext | attempts hnext | fails hnext => exact absurd (h.next hnext) nofun
  | failover _ hm hf =>
    refine hfired rfl ?_ hf nofun
    rw [failovertimerElapsed_of hm]
    exact id
  | submits _ hf | hashrate hf => exact hfired rfl id hf nofun
  | completes he hf => exact hfired rfl id hf fun _ hrun => by rw [hrun] at he; cases he
  | selects _ _ _ hf => exact hfired rfl id hf nofun
  | stops _ hf =>
    refine hfired rfl (fun hmining => ?_) hf nofun
    unfold Manager.stop at hmining
    split at hmining
    · exact hmining
    · exact absurd ((stop_isMining _).symm.trans hmining) nofun
  | _ => exact ⟨.of_same rfl id, fun _ => h⟩

/-- Once `m_stopping` is set, the client is dormant. -/
theorem dormant_of_run {past : List (Pool × Ev)} (h : Run E S Quiet past p) :
    p.st.stopping = true → p.st.crashed = none → Dormant p.st := by
  induction h with
  | start hs =>
    obtain ⟨⟩ := hs
    exact nofun
  | @step past p q e _ hquiet hstep ih =>
    intro hq hrun
    obtain ⟨hcrash, ha⟩ := acted_of_step hstep
    rcases ha.stopping hq with hp | ⟨rfl, hrunning, hf⟩
    · exact ((ih hp hcrash).acted ha).2 hrun
    · obtain ⟨hu, hc⟩ := hquiet rfl hrunning
      exact stopped_dormant hu hc hf hrun

/-- Once `stop` has set `m_stopping`, no step starts a session or puts the farm into mining. -/
theorem stop_final {past : List (Pool × Ev)} {e : Ev} (h : Run E S Quiet past p) (hstop : p.st.stopping = true)
    (hstep : step E S p e = some q) : .onConnected ∉ p.news q.st ∧
      (q.farm.isMining = true → p.farm.isMining = true) := by
  obtain ⟨hcrash, ha⟩ := acted_of_step hstep
  exact ((dormant_of_run h hstop hcrash).acted ha).1

/-- `stop` comes while the client connects; the login is sent and accepted all the same. -/
theorem session_after_stop : ∃ past p q, Reach (tableEnv [accepted]) traceSettings past p ∧ p.st.stopping = true ∧
    step (tableEnv [accepted]) traceSettings p (.run 0) = some q ∧ .onConnected ∈ p.news q.st ∧
    p.farm.isMining = false ∧ q.farm.isMining = true := by
  obtain ⟨past, p, hrun, hstopping, hmining, hstep⟩ := traced_of_record (step (tableEnv [accepted]) traceSettings)
    (fun _ _ => true) tracePool_started
    [.run 0, .run 0, .run 0, .stop, .completes (.connectCompletes false false), .run 0,
      .completes (.received (lineOf accepted))]
    (P := fun _ p => p.st.stopping = true ∧ p.farm.isMining = false ∧
      (step (tableEnv [accepted]) traceSettings p (.run 0)).any
        (fun q => decide (.onConnected ∈ p.news q.st ∧ q.farm.isMining = true)) = true) (by decide +kernel)
  obtain ⟨q, hq, h⟩ := (Option.any_eq_true _ _).mp hstep
  have h := of_decide_eq_true h
  exact ⟨past, p, q, hrun.mono fun _ _ _ => trivial, hstopping, hq, h.1, hmining, h.2⟩

/-- `stop` behind a login. -/
theorem no_session_after_stop : ∃ past p q, Run (tableEnv [accepted]) traceSettings Quiet past p ∧
    p.st.stopping = true ∧ step (tableEnv [accepted]) traceSettings p (.run 0) = some q ∧
    .onConnected ∉ p.news q.st := by
  obtain ⟨past, p, hrun, hstopping, hstep⟩ := traced_of_record (step (tableEnv [accepted]) traceSettings)
    (fun p e => decide (Quiet p e)) tracePool_started (sessionTrace ++ [.stop])
    (P := fun _ p => p.st.stopping = true ∧ (step (tableEnv [accepted]) traceSettings p (.run 0)).isSome = true)
    (by decide +kernel)
  obtain ⟨q, hq⟩ := Option.isSome_iff_exists.mp hstep
  have hquiet := hrun.mono fun _ _ => of_decide_eq_true
  exact ⟨past, p, q, hquiet, hstopping, hq, (stop_final hquiet hstopping hq).1⟩

end CoreMiner.Pools
