/-
  CoreMiner.Stratum.Watchdog — the workloop timer while the client is at work
  (`XcbStratumClient.cpp`: `connect`, `start_connect`, `workloop_timer_elapsed`).

  `connect` arms the timer and every tick arms it again, except the tick that closes the
  socket of a pending connect or shutdown, which returns. Nothing else arms it before the
  connection is reported as lost. So in a run in which no tick closes a pending socket and
  every `disconnect` is in order, a client that connects or is connected is watched
  (`watched_of_run`); after such a tick the next endpoint is connected to, and talked to,
  without a watchdog (`unwatched_after_tick`).
-/

import CoreMiner.Stratum.Disconnect

namespace CoreMiner.Stratum

open DevCore EthCore Lib Prog

variable {E : Env} {s t : St} {a : Nat}

def Wait.isFinite : Wait → Bool
  | .until _ => true
  | .forever => false

def Handler.isTick : Handler → Bool
  | workloopTimerElapsed aborted => !aborted
  | _ => false

def St.watched (s : St) : Bool := s.timer.any Wait.isFinite || s.queue.any Handler.isTick

def sparesPending (E : Env) (s : St) : Ev → Bool
  | .run _ =>
    match s.queue, s.conn with
    | .workloopTimerElapsed false :: _, some a => !closesAt E s a
    | _, _ => true
  | _ => true

/-! ## Being at work -/

def Handler.isBusy : Handler → Bool
  | startConnect | resolveHandler _ | connectHandler .. | onSSLShutdownCompleted | disconnectFinalize => true
  | _ => false

/-- The turns after `connect` that there are, and the connection itself. -/
def St.busy (s : St) : Nat :=
  s.resolves + s.connects + s.shutdowns + s.queue.countP Handler.isBusy + s.connected.toNat

theorem busy_le (s : St) : s.busy ≤ s.turns + s.connected.toNat := by
  have hle : s.queue.countP Handler.isBusy ≤ s.queue.countP Handler.isTurn :=
    List.countP_mono_left fun k _ hk => by cases k <;> first | rfl | cases hk
  unfold St.busy St.turns
  omega

theorem connectTurns_le_busy (s : St) : s.connectTurns ≤ s.busy := by
  have hle : s.queue.countP Handler.isConnect ≤ s.queue.countP Handler.isBusy :=
    List.countP_mono_left fun k _ hk => by cases k <;> first | rfl | cases hk
  unfold St.connectTurns St.busy
  omega

theorem partTurns_le_busy (s : St) : s.partTurns ≤ s.busy := by
  have hle : s.queue.countP Handler.isPart ≤ s.queue.countP Handler.isBusy :=
    List.countP_mono_left fun k _ hk => by cases k <;> first | rfl | cases hk
  unfold St.partTurns St.busy
  omega

/-- Nothing is at work without a connection. -/
theorem Ordered.busy_of_unbound (h : Ordered s) (hc : s.conn = none) : s.busy = 0 := by
  obtain ⟨hturns, hconnected⟩ := h.unbound hc
  have hle := busy_le s
  rw [hturns, hconnected] at hle
  simpa using hle

structure Watched (s : St) : Prop where
  ordered : Ordered s
  watch : 0 < s.busy → s.watched = true

/-! ## Moves that keep the watch -/

structure Extends (s t : St) : Prop where
  timer : t.timer = s.timer
  queue : ∃ new, t.queue = s.queue ++ new

namespace Extends

theorem refl (s : St) : Extends s s := ⟨rfl, [], by simp⟩

theorem trans {u : St} (h : Extends s t) (h' : Extends t u) : Extends s u := by
  obtain ⟨x, hx⟩ := h.queue
  obtain ⟨y, hy⟩ := h'.queue
  exact ⟨h'.timer.trans h.timer, x ++ y, by rw [hy, hx, List.append_assoc]⟩

theorem watched (h : Extends s t) (hs : s.watched = true) : t.watched = true := by
  obtain ⟨new, hnew⟩ := h.queue
  unfold St.watched at *
  rw [h.timer, hnew, List.any_append]
  rcases Bool.or_eq_true .. ▸ hs with h | h <;> simp [h]

theorem aborted (s : St) : Extends s s.aborted := ⟨rfl, _, rfl⟩

theorem closed (s : St) : Extends s s.closed := ⟨rfl, _, rfl⟩

theorem fresh (s : St) (a : Nat) : Extends s (s.fresh a) := ⟨rfl, _, rfl⟩

theorem refused (s : St) : Extends s s.refused := by
  unfold St.refused
  split
  · exact closed s
  · exact refl s

theorem idle (h : Idle s t) : Extends s t := by
  obtain ⟨n, hn⟩ := h.queue
  exact ⟨congrArg Link.timer h.link, _, hn⟩

end Extends

def Attended (s : St) : Prop := s.conn = none ∨ s.busy = 0 ∨ s.watched = true

theorem attended_of_watched (hs : s.watched = true) : Attended s := .inr (.inr hs)

/-- A lost connection is not watched any more. -/
theorem finalized_watched (hs : s.watched = true) : Attended (s.finalized a) := by
  unfold St.finalized
  split
  · split
    · have hext : Extends s ((s.released a).lowered a) := by
        refine (Extends.closed s).trans ⟨rfl, [.startConnect], ?_⟩
        rfl
      exact attended_of_watched (hext.watched hs)
    · exact .inl rfl
  · exact .inl rfl

theorem ticking_watched (s : St) : s.ticking.watched = true := by
  simp [St.ticking, St.armed, St.watched, Wait.isFinite]

def KeepsWatch (m : M Unit) (s : St) : Prop := wp m (fun _ t => Attended t) (fun _ _ => True) s

theorem watch_of (hs : s.watched = true) (h : Extends s t) : Attended t := attended_of_watched (h.watched hs)

theorem disconnectFinalize_watched (hs : s.watched = true) : KeepsWatch disconnectFinalize s := by
  rw [KeepsWatch, wp_disconnectFinalize]
  split
  · trivial
  · exact finalized_watched hs

theorem disconnect_watched (hs : s.watched = true) : KeepsWatch disconnect s := by
  have hparting : s.parting.watched = true := hs
  have haborted : s.parting.aborted.watched = true := (Extends.aborted _).watched hparting
  rw [KeepsWatch, wp_disconnect]
  split
  · exact attended_of_watched hs
  · split
    · split
      · rw [wp_shutdownSocket]
        split
        · trivial
        · split
          · exact attended_of_watched haborted
          · exact finalized_watched ((Extends.closed _).watched haborted)
      · trivial
    · exact disconnectFinalize_watched hparting

theorem connect_watched (hc : s.connecting = false) : KeepsWatch connect s := by
  rw [KeepsWatch, wp_connect, if_neg (by simp [hc])]
  split
  · trivial
  · rename_i a _
    have htuned : s.tuned.watched = true := ticking_watched s
    have hext : Extends s.tuned ((s.dialing a).resolving (s.uris a)) := by
      have hdialing : Extends s.tuned (s.dialing a) := by
        unfold St.dialing
        split
        · exact ⟨rfl, [], by simp [St.unresolved]⟩
        · exact (Extends.fresh s.tuned a).trans ⟨rfl, [], by simp [St.unresolved]⟩
      refine hdialing.trans ?_
      unfold St.resolving
      split
      · exact ⟨rfl, _, rfl⟩
      · exact ⟨rfl, _, rfl⟩
    exact watch_of htuned hext

theorem giveUpConnecting_watched (hs : s.watched = true) : KeepsWatch giveUpConnecting s := by
  rw [KeepsWatch, wp_giveUpConnecting]
  split
  · trivial
  · exact finalized_watched hs

theorem asyncConnect_watched (hs : s.watched = true) : KeepsWatch asyncConnect s := by
  rw [KeepsWatch, wp_asyncConnect]
  split
  · trivial
  · rename_i a _
    have hext : Extends s (s.opening a) := by
      unfold St.opening
      split
      · exact ⟨rfl, [], by simp [St.pleading]⟩
      · exact (Extends.fresh s a).trans ⟨rfl, [], by simp [St.pleading]⟩
    exact watch_of hs hext

theorem startConnect_watched (hs : s.watched = true) : KeepsWatch startConnect s := by
  rw [KeepsWatch, wp_startConnect]
  split_ifs
  · exact attended_of_watched hs
  · exact giveUpConnecting_watched hs
  · exact asyncConnect_watched hs

theorem resolveHandler_watched (hs : s.watched = true) (endpoints : Option (List Nat)) :
    KeepsWatch (resolveHandler endpoints) s := by
  rw [KeepsWatch, wp_resolveHandler]
  split
  · exact watch_of hs ⟨rfl, _, rfl⟩
  · exact giveUpConnecting_watched hs

theorem connectFailed_watched (hs : s.watched = true) : KeepsWatch connectFailed s := by
  rw [KeepsWatch, wp_connectFailed]
  split
  · trivial
  · exact watch_of hs ((Extends.refused s).trans ⟨rfl, _, rfl⟩)

theorem connectEstablished_watched (hs : s.watched = true) (handshakeFails : Bool) :
    KeepsWatch (connectEstablished E handshakeFails) s := by
  rw [KeepsWatch, wp_connectEstablished]
  split
  · trivial
  · rename_i a hc
    split
    · exact watch_of hs ⟨rfl, _, rfl⟩
    · have hconn : (s.established a).conn = some a := hc
      rw [wp_login hconn]
      split
      · refine wp_mono ((send_sent _).from_ _) (fun _ t ht => ?_) fun _ _ _ => trivial
        have hgreeting : Extends s ((s.established a).greeting a) :=
          ⟨rfl, [], by simp [St.greeting, St.loggingIn, St.established, St.updateUri]⟩
        exact watch_of hs (hgreeting.trans (.idle ht.idle))
      · trivial

theorem connectHandler_watched (hs : s.watched = true) (ec handshakeFails : Bool) :
    KeepsWatch (connectHandler E ec handshakeFails) s := by
  rw [KeepsWatch, wp_connectHandler]
  split
  · split
    · exact connectFailed_watched hs
    · exact connectEstablished_watched (s := { s with connecting := false }) hs handshakeFails
  · trivial

theorem onSSLShutdownCompleted_watched (hs : s.watched = true) : KeepsWatch onSSLShutdownCompleted s := by
  rw [KeepsWatch, wp_onSSLShutdownCompleted]
  exact watch_of hs ⟨rfl, _, rfl⟩

/-! ## The runs -/

theorem Watched.cons {k : Handler} (h : Watched (s.cons k)) (hk : k.isBusy = true) : s.watched = true := by
  have hwatch := h.watch (by simp [St.busy, St.cons, hk])
  have htick : k.isTick = false := by cases k <;> first | rfl | cases hk
  simpa [St.watched, St.cons, htick] using hwatch

/-- A handler that is neither a turn nor a tick leaves the watch as it is. -/
theorem Watched.of_cons {k : Handler} (h : Watched (s.cons k)) (hk : k.isAside = true) (htick : k.isTick = false) :
    Watched s where
  ordered := h.ordered.of_cons hk
  watch hs := by
    have hbusy : k.isBusy = false := by cases k <;> first | rfl | cases hk
    have hwatch := h.watch (by simpa [St.busy, St.cons, hbusy] using hs)
    simpa [St.watched, St.cons, htick] using hwatch

theorem Idle.busy (h : Idle s t) : t.busy = s.busy := by
  obtain ⟨n, hq⟩ := h.queue
  have hside : (List.replicate n Handler.disconnect).countP Handler.isBusy = 0 := by
    simp [List.countP_replicate, Handler.isBusy]
  simp only [St.busy, hq, List.countP_append, hside, show t.resolves = s.resolves from congrArg Link.resolves h.link,
    show t.connects = s.connects from congrArg Link.connects h.link,
    show t.shutdowns = s.shutdowns from congrArg Link.shutdowns h.link,
    show t.connected = s.connected from congrArg Link.connected h.link]
  omega

theorem Watched.rests (h : Watched s) {m : M Unit} (hm : Rests m) :
    wp m (fun _ t => Watched t) (fun _ _ => True) s := by
  refine wp_mono (hm.from_ s) (fun _ t ht => ⟨h.ordered.alike ht.alike, fun hb => ?_⟩) fun _ _ _ => trivial
  rw [ht.busy] at hb
  exact (Extends.idle ht).watched (h.watch hb)

theorem watched_of_order {m : M Unit} (ho : wp m (fun _ t => Ordered t) (fun _ t => Handled t.log) s)
    (hw : KeepsWatch m s) : wp m (fun _ t => Watched t) (fun _ _ => True) s := by
  refine wp_mono (wp_and ho hw) (fun _ t ⟨ht, hwatch⟩ => ⟨ht, fun hb => ?_⟩) fun _ _ _ => trivial
  rcases hwatch with hc | hbusy | hwatch
  · rw [ht.busy_of_unbound hc] at hb
    omega
  · omega
  · exact hwatch

theorem Watched.disconnect (h : Watched s) (hin : s.disconnecting = true ∨ s.connected = true) :
    wp disconnect (fun _ t => Watched t) (fun _ _ => True) s := by
  have hbusy : 0 < s.busy := by
    rcases hin with hd | hc
    · exact (h.ordered.disconnecting hd).trans_le (partTurns_le_busy s)
    · simp [St.busy, hc]
  exact watched_of_order (h.ordered.disconnect hin) (disconnect_watched (h.watch hbusy))

theorem rotateConnect_watched (hc : s.conn = none) (choice : Option (Nat × Bool)) :
    KeepsWatch (rotateConnect choice) s := by
  rw [KeepsWatch, wp_rotateConnect]
  split
  · exact .inl hc
  · split
    · exact .inl hc
    · rename_i a delayed
      split
      · refine .inr (.inl ?_)
        have hqueue : (s.queue.filter Handler.ofManager).countP Handler.isBusy = 0 := by
          rw [List.countP_eq_zero]
          intro k hk
          have hmanager := (List.mem_filter.mp hk).2
          cases k <;> first | exact Bool.false_ne_true | cases hmanager
        simp [St.busy, St.rebound, St.updateUri, St.newClient, hqueue]
      · exact connect_watched rfl

theorem Watched.run {k : Handler} (h : Watched (s.cons k)) (choice : Option (Nat × Bool))
    (hin : k = .disconnect → s.disconnecting = true ∨ s.connected = true)
    (hspare : k = .workloopTimerElapsed false → ∀ a, s.conn = some a → closesAt E s a = false) :
    wp (runHandler E choice k) (fun _ t => Watched t) (fun _ _ => True) s := by
  have horder := h.ordered.run (E := E) choice hin
  cases k with
  | startConnect => exact watched_of_order horder (startConnect_watched (h.cons rfl))
  | disconnect => exact (h.of_cons rfl rfl).disconnect (hin rfl)
  | disconnectFinalize => exact watched_of_order horder (disconnectFinalize_watched (h.cons rfl))
  | resolveHandler endpoints => exact watched_of_order horder (resolveHandler_watched (h.cons rfl) endpoints)
  | connectHandler ec handshakeFails =>
    exact watched_of_order horder (connectHandler_watched (h.cons rfl) ec handshakeFails)
  | workloopTimerElapsed aborted =>
    cases aborted with
    | true => exact wp_workloopTimerElapsed_true.mpr (h.of_cons rfl rfl)
    | false =>
      refine watched_of_order horder ?_
      cases hc : s.conn with
      | none => exact (wp_workloopTimerElapsed_none hc).mpr (.inl hc)
      | some a =>
        refine wp_workloopTimerElapsed_of hc (fun t _ hclose => ?_) (fun t _ _ => ?_) fun _ _ _ => trivial
        · simp [hspare rfl a hc] at hclose
        · exact attended_of_watched (ticking_watched t)
  | onRecvSocketDataCompleted data => exact (h.of_cons rfl rfl).rests (onRecvSocketDataCompleted_rests data)
  | onSendSocketDataCompleted ec => exact (h.of_cons rfl rfl).rests (onSendSocketDataCompleted_rests ec)
  | onSSLShutdownCompleted => exact watched_of_order horder (onSSLShutdownCompleted_watched (h.cons rfl))
  | processResponse response => exact (h.of_cons rfl rfl).rests (processResponse_tame response).rests
  | rotateConnect => exact watched_of_order horder (rotateConnect_watched h.ordered.unbound_of_rotate choice)
  | reconnectTimerElapsed =>
    obtain ⟨a, hfree⟩ := h.ordered.free rfl
    refine watched_of_order horder ?_
    rw [KeepsWatch, runHandler, wp_reconnectTimerElapsed, if_neg (by simp [St.isConnected, hfree.connected])]
    exact connect_watched (h.ordered.connecting_eq_false rfl hfree.turns)

def Guarded (s : St) : Prop := s.crashed = none → Watched s

theorem guarded_call {m : M Unit} (h : wp m (fun _ t => Watched t) (fun _ _ => True) s) : Guarded (call m s) :=
  call_of_wp (wp_mono h (fun _ _ ht _ => ht) fun _ _ _ => nofun)

theorem busy_push (s : St) (k : Handler) : (s.push k).busy = s.busy + if k.isBusy then 1 else 0 := by
  simp only [St.busy, St.push, List.countP_append, List.countP_singleton]
  omega

/-- No new work, and the timer and the queue are still there. -/
theorem Watched.extends (h : Watched s) (ho : Orderly t) (hext : Extends s t) (hb : t.busy ≤ s.busy) : Guarded t :=
  fun hcrash => ⟨ho.ordered hcrash, fun hbusy => hext.watched (h.watch (hbusy.trans_le hb))⟩

theorem Watched.step {e : Ev} (h : Watched s) (hin : inOrder s e = true) (hspare : sparesPending E s e = true)
    (hf : Fired E s e t) : Guarded t := by
  have horder := h.ordered.step hin hf
  cases hf with
  | @run choice k queue hq =>
    rw [St.eq_cons hq] at h
    refine guarded_call (h.run choice (fun hk => ?_) fun hk a hc => ?_)
    · subst hk
      simpa [inOrder, hq] using hin
    · subst hk
      have hc' : s.conn = some a := hc
      have hspared : closesAt E s a = false := by simpa [sparesPending, hq, hc'] using hspare
      exact hspared
  | timerExpires _ _ =>
    exact fun hcrash => ⟨horder.ordered hcrash, fun _ => by simp [St.watched, St.push, Handler.isTick]⟩
  | resolved hpos =>
    refine h.extends horder ⟨rfl, _, rfl⟩ ?_
    rw [busy_push]
    simp only [St.busy, Handler.isBusy, if_true]
    omega
  | connectCompletes hpos =>
    refine h.extends horder ⟨rfl, _, rfl⟩ ?_
    rw [busy_push]
    simp only [St.busy, Handler.isBusy, if_true]
    omega
  | received _ _ => exact h.extends horder ⟨rfl, _, rfl⟩ (busy_push _ _).le
  | readFails _ => exact h.extends horder ⟨rfl, _, rfl⟩ (busy_push _ _).le
  | written _ => exact h.extends horder ⟨rfl, _, rfl⟩ (busy_push _ _).le
  | writeFails _ => exact h.extends horder ⟨rfl, _, rfl⟩ (busy_push _ _).le
  | shutdownCompletes hpos =>
    refine h.extends horder ⟨rfl, _, rfl⟩ ?_
    rw [busy_push]
    simp only [St.busy, Handler.isBusy, if_true]
    omega
  | reconnectTimerExpires _ => exact h.extends horder ⟨rfl, _, rfl⟩ (busy_push _ _).le
  | advance => exact h.extends horder ⟨rfl, [], by simp⟩ (Nat.le_refl _)
  | callDisconnect _ => exact guarded_call (h.disconnect (by simpa [inOrder] using hin))
  | stopConnected _ hc =>
    have hordered : Ordered { s with stopping := true } := { h.ordered with }
    have hstopping : Watched { s with stopping := true } := ⟨hordered, h.watch⟩
    refine guarded_call (hstopping.disconnect (.inr ?_))
    simp only [St.isConnected, Bool.and_eq_true] at hc
    exact hc.1
  | stopUnconnected _ => exact h.extends horder ⟨rfl, [], by simp⟩ (Nat.le_refl _)
  | submitSolution _ => exact guarded_call (h.rests (submitSolution_rests _))
  | submitHashrate _ => exact guarded_call (h.rests (submitHashrate_rests _ _))

/-- If no tick closes a pending socket and every `disconnect` is in order, a client that
    connects or is connected is watched. -/
theorem watched_of_run (h : Run E (fun s e => (inOrder s e && sparesPending E s e) = true) s)
    (hcrash : s.crashed = none)
    (hwork : s.connecting = true ∨ s.connected = true) : s.watched = true := by
  have hguarded : Guarded s := by
    refine run_invariant (fun uris _ _ => ⟨ordered_init uris, nofun⟩) (fun s e t hs hc hC hf => ?_) h
    rw [Bool.and_eq_true] at hC
    exact (hs hc).step hC.1 hC.2 hf
  have hwatched := hguarded hcrash
  apply hwatched.watch
  rcases hwork with hc | hc
  · exact (hwatched.ordered.connecting hc).trans_le (connectTurns_le_busy s)
  · simp [St.busy, hc]

def resolveTrace : List Ev := [.run (some (0, false)), .run none, .resolved (some [0, 1]), .run none, .run none]

def dnsUri (version : Nat) : Uri := { plainUri version with hostNameType := .dns }

theorem dnsUri_fresh (version : Nat) (h : version ≤ 3 ∨ version = 999) : (dnsUri version).Fresh :=
  ⟨rfl, rfl, rfl, rfl, h⟩

/-- The first endpoint answers at once. -/
theorem watched_after_connect :
    ∃ s, Run (tableEnv []) (fun s e => (inOrder s e && sparesPending (tableEnv []) s e) = true) s ∧
    s.connected = true ∧ s.watched = true := by
  obtain ⟨s, hrun, hs⟩ := run_of_trace (tableEnv []) (C := fun s e => inOrder s e && sparesPending (tableEnv []) s e)
    (fun _ => dnsUri_fresh STRATUM (.inl (by decide)))
    (resolveTrace ++ [.connectCompletes false false, .run none])
    (p := fun s => s.connected = true ∧ s.crashed.isNone = true) (by decide +kernel)
  exact ⟨s, hrun, hs.1, watched_of_run hrun (Option.isNone_iff_eq_none.mp hs.2) (.inr hs.1)⟩

/-- The first tick finds the connect to the first endpoint still pending, closes its socket
    and returns. The second endpoint answers: the client is connected, and unwatched. -/
theorem unwatched_after_tick : ∃ s, Reach (tableEnv []) s ∧
    s.crashed.isNone = true ∧ s.connected = true ∧ s.watched = false :=
  reach_of_trace (tableEnv []) (fun _ => dnsUri_fresh STRATUM (.inl (by decide)))
    (resolveTrace ++ [.advance 1000000000, .timerExpires, .run none, .run none, .run none,
      .connectCompletes false false, .run none]) (by decide +kernel)

end CoreMiner.Stratum
