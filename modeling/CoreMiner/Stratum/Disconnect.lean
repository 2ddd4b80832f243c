/-
  CoreMiner.Stratum.Disconnect — the loss of a connection is handled once
  (`XcbStratumClient.cpp`: `disconnect`, `disconnect_finalize`; `PoolManager.cpp`: the
  `onDisconnected` handler).

  `disconnect` can be posted from many places, and its guard `m_disconnecting` is released
  inside `disconnect_finalize`. What orders the connection is a baton: at most one turn of
  connecting or disconnecting (an operation under way, its handler in the queue, an
  established connection) exists at any time, and none while `m_conn` is null (`Ordered`).
  A `disconnect` that runs while a connection is established, or while one is being shut
  down, keeps it (`ordered_of_run`), and then `disconnect_finalize` never runs without a
  connection and the loss is reported once (`loss_handled_once`). A second `disconnect` in
  the queue breaks it: two invalid lines in one transmission suffice
  (`finalized_twice`).
-/

import CoreMiner.Stratum.Moves

namespace CoreMiner.Stratum

open DevCore EthCore Lib Prog

variable {E : Env} {s t : St} {a : Nat}

/-! ## What is to be shown -/

def firedSince : List Out → Nat
  | [] => 0
  | .setConnection _ :: _ => 0
  | .onDisconnected :: log => firedSince log + 1
  | _ :: log => firedSince log

/-- `disconnect_finalize` had a connection, and at most one report was made for it. -/
structure Handled (log : List Out) : Prop where
  bound : Out.finalizing none ∉ log
  once : firedSince log ≤ 1

/-- A `disconnect` finds a connection that is established, or the guard of another one. -/
def inOrder (s : St) : Ev → Bool
  | .run _ =>
    match s.queue with
    | .disconnect :: _ => s.disconnecting || s.connected
    | _ => true
  | .callDisconnect => s.disconnecting || s.connected
  | _ => true

/-! ## Turns -/

def Handler.isTurn : Handler → Bool
  | startConnect | resolveHandler _ | connectHandler .. | onSSLShutdownCompleted | disconnectFinalize
  | reconnectTimerElapsed => true
  | _ => false

def Handler.isConnect : Handler → Bool
  | connectHandler .. => true
  | _ => false

def Handler.isPart : Handler → Bool
  | onSSLShutdownCompleted | disconnectFinalize => true
  | _ => false

def Handler.isRotate : Handler → Bool
  | rotateConnect => true
  | _ => false

namespace St

def turns (s : St) : Nat :=
  s.resolves + s.connects + s.shutdowns + s.queue.countP Handler.isTurn + s.reconnectPending.toNat

def connectTurns (s : St) : Nat := s.connects + s.queue.countP Handler.isConnect

def partTurns (s : St) : Nat := s.shutdowns + s.queue.countP Handler.isPart

def rotations (s : St) : Nat := s.queue.countP Handler.isRotate

def cons (s : St) (k : Handler) : St := { s with queue := k :: s.queue }

theorem eq_cons {s : St} {k : Handler} {queue : List Handler} (h : s.queue = k :: queue) :
    s = { s with queue }.cons k := by rw [cons, ← h]

end St

/-- At most one turn, none without a connection, and every flag has its turn. -/
structure Ordered (s : St) : Prop where
  one : s.turns + s.rotations + s.connected.toNat ≤ 1
  unbound : s.conn = none → s.turns = 0 ∧ s.connected = false
  bound : s.conn ≠ none → s.rotations = 0 ∧ firedSince s.log = 0
  connecting : s.connecting = true → 0 < s.connectTurns
  disconnecting : s.disconnecting = true → 0 < s.partTurns
  handled : Handled s.log

/-- Two states with the same turns, flags and reports. -/
structure Alike (s t : St) : Prop where
  turns : t.turns = s.turns
  connectTurns : t.connectTurns = s.connectTurns
  partTurns : t.partTurns = s.partTurns
  rotations : t.rotations = s.rotations
  conn : t.conn = s.conn
  connected : t.connected = s.connected
  connecting : t.connecting = s.connecting
  disconnecting : t.disconnecting = s.disconnecting
  fired : firedSince t.log = firedSince s.log
  log : Out.finalizing none ∈ t.log ↔ Out.finalizing none ∈ s.log

theorem Alike.handled (h : Alike s t) (hs : Handled s.log) : Handled t.log :=
  ⟨fun ht => hs.bound (h.log.mp ht), h.fired ▸ hs.once⟩

theorem Ordered.alike (hs : Ordered s) (h : Alike s t) : Ordered t where
  one := by
    rw [h.turns, h.rotations, h.connected]
    exact hs.one
  unbound hc := by
    rw [h.turns, h.connected]
    exact hs.unbound (h.conn ▸ hc)
  bound hc := by
    rw [h.rotations, h.fired]
    exact hs.bound (h.conn ▸ hc)
  connecting hc := by
    rw [h.connectTurns]
    exact hs.connecting (h.connecting ▸ hc)
  disconnecting hc := by
    rw [h.partTurns]
    exact hs.disconnecting (h.disconnecting ▸ hc)
  handled := h.handled hs.handled

theorem Alike.trans {u : St} (h : Alike s t) (h' : Alike t u) : Alike s u where
  turns := h'.turns.trans h.turns
  connectTurns := h'.connectTurns.trans h.connectTurns
  partTurns := h'.partTurns.trans h.partTurns
  rotations := h'.rotations.trans h.rotations
  conn := h'.conn.trans h.conn
  connected := h'.connected.trans h.connected
  connecting := h'.connecting.trans h.connecting
  disconnecting := h'.disconnecting.trans h.disconnecting
  fired := h'.fired.trans h.fired
  log := h'.log.trans h.log

theorem aborted_alike (s : St) : Alike s s.aborted where
  turns := by
    simp [St.turns, St.aborted, St.aborting, List.countP_append, List.countP_replicate, Handler.isTurn]
    omega
  connectTurns := by
    simp [St.connectTurns, St.aborted, St.aborting, List.countP_append, List.countP_replicate, Handler.isConnect]
    omega
  partTurns := by
    simp [St.partTurns, St.aborted, St.aborting, List.countP_append, List.countP_replicate, Handler.isPart]
    omega
  rotations := by
    simp [St.rotations, St.aborted, St.aborting, List.countP_append, List.countP_replicate, Handler.isRotate]
  conn := rfl
  connected := rfl
  connecting := rfl
  disconnecting := rfl
  fired := rfl
  log := Iff.rfl

theorem closed_alike (s : St) : Alike s s.closed := { aborted_alike s with }

theorem turns_push (s : St) (k : Handler) : (s.push k).turns = s.turns + if k.isTurn then 1 else 0 := by
  simp only [St.turns, St.push, List.countP_append, List.countP_singleton]
  omega

theorem connectTurns_push (s : St) (k : Handler) :
    (s.push k).connectTurns = s.connectTurns + if k.isConnect then 1 else 0 := by
  simp only [St.connectTurns, St.push, List.countP_append, List.countP_singleton]
  omega

theorem partTurns_push (s : St) (k : Handler) : (s.push k).partTurns = s.partTurns + if k.isPart then 1 else 0 := by
  simp only [St.partTurns, St.push, List.countP_append, List.countP_singleton]
  omega

theorem rotations_push (s : St) (k : Handler) : (s.push k).rotations = s.rotations + if k.isRotate then 1 else 0 := by
  simp only [St.rotations, St.push, List.countP_append, List.countP_singleton]

def Handler.isAside (k : Handler) : Bool := !k.isTurn && !k.isRotate

theorem countP_aside {l : List Handler} (hl : ∀ k ∈ l, k.isAside = true) :
    l.countP Handler.isTurn = 0 ∧ l.countP Handler.isConnect = 0 ∧ l.countP Handler.isPart = 0 ∧
      l.countP Handler.isRotate = 0 := by
  simp only [List.countP_eq_zero]
  refine ⟨fun k hk => ?_, fun k hk => ?_, fun k hk => ?_, fun k hk => ?_⟩ <;>
    · have hside := hl k hk
      cases k <;> first | exact Bool.false_ne_true | cases hside

theorem alike_of_aside {l : List Handler} (hq : t.queue = s.queue ++ l) (hl : ∀ k ∈ l, k.isAside = true)
    (hlink : { t.link with timer := s.timer, endpoints := s.endpoints } = s.link)
    (hfired : firedSince t.log = firedSince s.log)
    (hlog : Out.finalizing none ∈ t.log ↔ Out.finalizing none ∈ s.log) : Alike s t := by
  obtain ⟨hturn, hconnect, hpart, hrotate⟩ := countP_aside hl
  have hresolves : t.resolves = s.resolves := congrArg Link.resolves hlink
  have hconnects : t.connects = s.connects := congrArg Link.connects hlink
  have hshutdowns : t.shutdowns = s.shutdowns := congrArg Link.shutdowns hlink
  have hpending : t.reconnectPending = s.reconnectPending := congrArg Link.reconnectPending hlink
  exact {
    turns := by simp [St.turns, hq, List.countP_append, hturn, hresolves, hconnects, hshutdowns, hpending]
    connectTurns := by simp [St.connectTurns, hq, List.countP_append, hconnect, hconnects]
    partTurns := by simp [St.partTurns, hq, List.countP_append, hpart, hshutdowns]
    rotations := by simp [St.rotations, hq, List.countP_append, hrotate]
    conn := congrArg Link.conn hlink
    connected := congrArg Link.connected hlink
    connecting := congrArg Link.connecting hlink
    disconnecting := congrArg Link.disconnecting hlink
    fired := hfired
    log := hlog }

theorem firedSince_idle {new log : List Out} (h : ∀ o ∈ new, o.isIdle = true) :
    firedSince (new ++ log) = firedSince log ∧ (Out.finalizing none ∈ new ++ log ↔ Out.finalizing none ∈ log) := by
  induction new with
  | nil => exact ⟨rfl, Iff.rfl⟩
  | cons o new ih =>
    obtain ⟨hfired, hlog⟩ := ih fun o ho => h o (List.mem_cons_of_mem _ ho)
    have ho := h o List.mem_cons_self
    have hne : Out.finalizing none ≠ o := fun h => by
      rw [← h] at ho
      cases ho
    constructor
    · cases o <;> first | exact hfired | cases ho
    · rw [List.cons_append, List.mem_cons, hlog]
      simp [hne]

theorem Idle.alike (h : Idle s t) : Alike s t := by
  obtain ⟨n, hq⟩ := h.queue
  obtain ⟨new, hlog, hnew⟩ := h.log
  have hlink : ({ t.link with timer := s.timer, endpoints := s.endpoints } : Link) = s.link :=
    congrArg (fun l : Link => { l with timer := s.timer }) h.link
  exact alike_of_aside hq (fun k hk => by rw [List.eq_of_mem_replicate hk]; rfl) hlink
    (hlog ▸ (firedSince_idle hnew).1) (hlog ▸ (firedSince_idle hnew).2)

theorem Ticked.alike (h : Ticked E s a t) : Alike s t := by
  rcases h.cases with h | ⟨u, hu, -, rfl⟩
  · exact h.alike
  · refine hu.idle.alike.trans (alike_of_aside rfl (fun k hk => ?_) rfl rfl Iff.rfl)
    rw [List.mem_singleton.mp hk]
    rfl

theorem armed_alike (s : St) (wait : Wait) : Alike s (s.armed wait) := by
  have hq : (s.armed wait).queue = s.queue ++ if s.timer.isSome then [.workloopTimerElapsed true] else [] := by
    simp only [St.armed]
    split <;> simp
  refine alike_of_aside hq (fun k hk => ?_) rfl rfl Iff.rfl
  split at hk <;> simp_all [Handler.isAside, Handler.isTurn, Handler.isRotate]

/-! ## Taking a turn -/

structure Free (s : St) (a : Nat) : Prop where
  conn : s.conn = some a
  turns : s.turns = 0
  rotations : s.rotations = 0
  connected : s.connected = false
  fired : firedSince s.log = 0
  log : Out.finalizing none ∉ s.log

theorem Free.handled (h : Free s a) : Handled s.log := ⟨h.log, by rw [h.fired]; omega⟩

theorem Free.alike (hs : Free s a) (h : Alike s t) : Free t a where
  conn := h.conn.trans hs.conn
  turns := h.turns.trans hs.turns
  rotations := h.rotations.trans hs.rotations
  connected := h.connected.trans hs.connected
  fired := h.fired.trans hs.fired
  log ht := hs.log (h.log.mp ht)

/-- A handler's turn is gone from the queue when it runs. -/
theorem Ordered.free {k : Handler} (h : Ordered (s.cons k)) (hk : k.isTurn = true) : ∃ a, Free s a := by
  have hturns : (s.cons k).turns = s.turns + 1 := by
    simp [St.turns, St.cons, hk]
    omega
  have hone := h.one
  have hconn : (s.cons k).conn ≠ none := fun hc => by
    have := (h.unbound hc).1
    omega
  obtain ⟨a, ha⟩ := Option.ne_none_iff_exists'.mp hconn
  have hrotate : k.isRotate = false := by cases k <;> first | rfl | cases hk
  have hrotations : s.rotations = (s.cons k).rotations := by simp [St.rotations, St.cons, hrotate]
  have hconnected : s.connected = false := by
    have : (s.cons k).connected.toNat = 0 := by omega
    simpa [St.cons] using this
  exact ⟨a, ha, by omega, by omega, hconnected, (h.bound hconn).2, h.handled.bound⟩

theorem connectTurns_le (s : St) : s.connectTurns ≤ s.turns := by
  have hle : s.queue.countP Handler.isConnect ≤ s.queue.countP Handler.isTurn :=
    List.countP_mono_left fun k _ hk => by cases k <;> first | rfl | cases hk
  unfold St.connectTurns St.turns
  omega

theorem partTurns_le (s : St) : s.partTurns ≤ s.turns := by
  have hle : s.queue.countP Handler.isPart ≤ s.queue.countP Handler.isTurn :=
    List.countP_mono_left fun k _ hk => by cases k <;> first | rfl | cases hk
  unfold St.partTurns St.turns
  omega

/-- A flag whose turn is not the one that is taken is down. -/
theorem Ordered.connecting_eq_false {k : Handler} (h : Ordered (s.cons k)) (hk : k.isConnect = false)
    (hs : s.turns = 0) : s.connecting = false := by
  have hle := connectTurns_le s
  have hsame : (s.cons k).connectTurns = s.connectTurns := by simp [St.connectTurns, St.cons, hk]
  by_contra hc
  have hpos := h.connecting (Bool.eq_true_of_not_eq_false hc)
  omega

theorem Ordered.disconnecting_eq_false {k : Handler} (h : Ordered (s.cons k)) (hk : k.isPart = false)
    (hs : s.turns = 0) : s.disconnecting = false := by
  have hle := partTurns_le s
  have hsame : (s.cons k).partTurns = s.partTurns := by simp [St.partTurns, St.cons, hk]
  by_contra hc
  have hpos := h.disconnecting (Bool.eq_true_of_not_eq_false hc)
  omega

theorem Ordered.of_cons {k : Handler} (h : Ordered (s.cons k)) (hk : k.isAside = true) : Ordered s := by
  obtain ⟨hturn, hconnect, hpart, hrotate⟩ := countP_aside (l := [k]) (by simpa using hk)
  simp only [List.countP_singleton] at hturn hconnect hpart hrotate
  refine h.alike ⟨?_, ?_, ?_, ?_, rfl, rfl, rfl, rfl, rfl, Iff.rfl⟩
  · simp [St.turns, St.cons, List.countP_cons, hturn]
  · simp [St.connectTurns, St.cons, List.countP_cons, hconnect]
  · simp [St.partTurns, St.cons, List.countP_cons, hpart]
  · simp [St.rotations, St.cons, List.countP_cons, hrotate]

/-! ## The end of a connection -/

theorem Handled.reported {log : List Out} (h : Handled log) (hfired : firedSince log = 0) :
    Handled (.onDisconnected :: log) :=
  ⟨by simpa using h.bound, by simp [firedSince, hfired]⟩

/-- `disconnect_finalize` has closed the socket of a free connection. -/
theorem Free.released (h : Free s a) : Free (s.released a) a := by
  have hclosed := h.alike (closed_alike s)
  refine ⟨hclosed.conn, hclosed.turns, hclosed.rotations, hclosed.connected, ?_, ?_⟩
  · exact h.fired
  · simp only [St.released, St.sessionReleased, St.finalizing, St.updateUri, h.conn]
    simpa using h.log

/-- Reporting the loss passes the turn to the pool manager. -/
theorem Free.reported (h : Free s a) (hc : s.connecting = false) (hd : s.disconnecting = false) :
    Ordered s.reported := by
  have harmed := h.alike (armed_alike s .forever)
  have hturns : s.reported.turns = 0 := by
    rw [← harmed.turns]
    simp only [St.turns, St.reported, List.countP_append]
    split <;> simp [St.armed, Handler.isTurn]
  have hrotations : s.reported.rotations ≤ 1 := by
    have hnone := harmed.rotations
    simp only [St.rotations] at hnone
    simp only [St.rotations, St.reported, List.countP_append, hnone]
    split <;> simp [Handler.isRotate]
  have hconnected : s.reported.connected = false := h.connected
  exact {
    one := by rw [hturns, hconnected]; simpa using hrotations
    unbound := fun _ => ⟨hturns, hconnected⟩
    bound := fun hb => absurd rfl hb
    connecting := fun hb => by simp [St.reported, hc] at hb
    disconnecting := fun hb => by simp [St.reported, hd] at hb
    handled := h.handled.reported h.fired }

/-- The next mode is tried: the turn is `start_connect`'s. -/
theorem Free.lowered (h : Free s a) (hc : s.connecting = false) (hd : s.disconnecting = false) :
    Ordered (s.lowered a) := by
  have hturns : (s.lowered a).turns = s.turns + 1 := by
    simp [St.turns, St.lowered, St.updateUri, List.countP_append, Handler.isTurn]
    omega
  have hrotations : (s.lowered a).rotations = 0 := by
    rw [← h.rotations]
    simp [St.rotations, St.lowered, St.updateUri, List.countP_append, Handler.isRotate]
  have hconnected : (s.lowered a).connected = false := h.connected
  have hconn : (s.lowered a).conn = some a := h.conn
  exact {
    one := by rw [hturns, h.turns, hrotations, hconnected]; simp
    unbound := fun hb => by simp [hconn] at hb
    bound := fun _ => ⟨hrotations, h.fired⟩
    connecting := fun hb => by simp [St.lowered, St.updateUri, hc] at hb
    disconnecting := fun hb => by simp [St.lowered, St.updateUri, hd] at hb
    handled := ⟨by simpa [St.lowered, St.updateUri] using h.log, h.handled.once⟩ }

theorem Free.finalized (h : Free s a) (hc : s.connecting = false) : Ordered (s.finalized a) := by
  have hreleased := h.released
  unfold St.finalized
  split
  · split
    · exact hreleased.lowered hc rfl
    · exact Free.reported (a := a) ⟨hreleased.conn, hreleased.turns, hreleased.rotations, hreleased.connected,
        hreleased.fired, hreleased.log⟩ hc rfl
  · exact hreleased.reported hc rfl

/-! ## The handlers -/

theorem Ordered.of_turn (hconn : s.conn = some a) (hturns : s.turns = 1) (hrotations : s.rotations = 0)
    (hconnected : s.connected = false) (hfired : firedSince s.log = 0) (hlog : Out.finalizing none ∉ s.log)
    (hc : s.connecting = true → 0 < s.connectTurns) (hd : s.disconnecting = true → 0 < s.partTurns) : Ordered s where
  one := by rw [hturns, hrotations, hconnected]; simp
  unbound hb := by simp [hconn] at hb
  bound _ := ⟨hrotations, hfired⟩
  connecting := hc
  disconnecting := hd
  handled := ⟨hlog, by omega⟩

theorem Free.posted (h : Free s a) (hc : s.connecting = false) {k : Handler} (hk : k.isTurn = true)
    (hrotate : k.isRotate = false) (hd : s.disconnecting = true → k.isPart = true) : Ordered (s.push k) := by
  have hturns : (s.push k).turns = 1 := by rw [turns_push, h.turns, hk]; rfl
  have hrotations : (s.push k).rotations = 0 := by rw [rotations_push, h.rotations, hrotate]; rfl
  refine .of_turn h.conn hturns hrotations h.connected h.fired h.log (fun hb => ?_) fun hb => ?_
  · simp [St.push, hc] at hb
  · rw [partTurns_push, hd hb]
    simp

theorem Free.shuttingDown (h : Free s a) (hc : s.connecting = false) : Ordered s.shuttingDown := by
  have hturns : s.shuttingDown.turns = s.turns + 1 := by
    simp only [St.turns, St.shuttingDown]
    omega
  refine .of_turn h.conn (by rw [hturns, h.turns]) h.rotations h.connected h.fired h.log (fun hb => ?_) fun _ => ?_
  · simp [St.shuttingDown, hc] at hb
  · simp only [St.partTurns, St.shuttingDown]
    omega

/-- An established connection is the only turn; `disconnect` takes it. -/
theorem Ordered.parting (h : Ordered s) (hconnected : s.connected = true) :
    ∃ a, Free s.parting a ∧ s.connecting = false := by
  have hone : s.turns + s.rotations + 1 ≤ 1 := by simpa [hconnected] using h.one
  have hconn : s.conn ≠ none := fun hc => by simpa [hconnected] using (h.unbound hc).2
  obtain ⟨a, ha⟩ := Option.ne_none_iff_exists'.mp hconn
  refine ⟨a, ⟨ha, ?_, ?_, rfl, (h.bound hconn).2, h.handled.bound⟩, ?_⟩
  · show s.turns = 0
    omega
  · show s.rotations = 0
    omega
  · have hle := connectTurns_le s
    by_contra hc
    have hpos := h.connecting (Bool.eq_true_of_not_eq_false hc)
    omega

/-- A `disconnect` in order passes the turn of the established connection on. -/
theorem Ordered.disconnect (h : Ordered s) (hin : s.disconnecting = true ∨ s.connected = true) :
    wp disconnect (fun _ t => Ordered t) (fun _ t => Handled t.log) s := by
  rw [wp_disconnect]
  split
  · exact h
  · rename_i hd
    have hconnected : s.connected = true := hin.resolve_left hd
    obtain ⟨a, hfree, hc⟩ := h.parting hconnected
    split
    · split
      · have haborted := hfree.alike (aborted_alike _)
        rw [wp_shutdownSocket, haborted.conn]
        show if _ then _ else _
        split
        · exact haborted.shuttingDown hc
        · exact (haborted.alike (closed_alike _)).finalized hc
      · exact h.handled
    · rw [wp_disconnectFinalize, hfree.conn]
      exact hfree.finalized hc

theorem fresh_alike (s : St) (a : Nat) : Alike s (s.fresh a) := { closed_alike s with }

theorem tuned_alike (s : St) : Alike s s.tuned := { armed_alike s (.until (s.now + workloopInterval)) with }

theorem dialing_alike (s : St) (a : Nat) : Alike s (s.dialing a) := by
  unfold St.dialing
  split
  · exact { tuned_alike s with }
  · exact { (tuned_alike s).trans (fresh_alike s.tuned a) with }

/-- `connect` takes a free connection to its first turn. -/
theorem Free.connect (h : Free s a) (hc : s.connecting = false) (hd : s.disconnecting = false) :
    wp connect (fun _ t => Ordered t) (fun _ t => Handled t.log) s := by
  have hdialing := h.alike (dialing_alike s a)
  have hc' : (s.dialing a).connecting = false := (dialing_alike s a).connecting.trans hc
  have hd' : (s.dialing a).disconnecting = false := (dialing_alike s a).disconnecting.trans hd
  rw [wp_connect, if_neg (by simp [hc]), h.conn]
  show Ordered ((s.dialing a).resolving (s.uris a))
  unfold St.resolving
  split
  · have hresolves : (s.dialing a).resolves = 0 := by
      have := hdialing.turns
      simp only [St.turns] at this
      omega
    refine .of_turn hdialing.conn ?_ ?_ hdialing.connected hdialing.fired hdialing.log ?_ ?_
    · have := hdialing.turns
      simp only [St.turns] at this ⊢
      simp only [hresolves, List.replicate_zero, List.append_nil]
      omega
    · simpa [St.rotations, hresolves] using hdialing.rotations
    · intro hb
      simp [hc'] at hb
    · intro hb
      simp [hd'] at hb
  · have hfree : Free { s.dialing a with endpoints := [0] } a := { hdialing with }
    exact hfree.posted hc' rfl rfl fun hb => by simp [hd'] at hb

theorem Free.giveUpConnecting (h : Free s a) :
    wp giveUpConnecting (fun _ t => Ordered t) (fun _ t => Handled t.log) s := by
  have hfree : Free { s with connecting := false } a := { h with }
  rw [wp_giveUpConnecting]
  split
  case h_1 hc => simp [h.conn] at hc
  case h_2 b hc =>
    obtain rfl : a = b := by simpa [h.conn] using hc
    exact hfree.finalized rfl

theorem Free.asyncConnect (h : Free s a) (hd : s.disconnecting = false) :
    wp asyncConnect (fun _ t => Ordered t) (fun _ t => Handled t.log) s := by
  rw [wp_asyncConnect, h.conn]
  show Ordered (s.opening a)
  have halike : Alike s (if s.socket then s else s.fresh a) := by
    split
    · exact ⟨rfl, rfl, rfl, rfl, rfl, rfl, rfl, rfl, rfl, Iff.rfl⟩
    · exact fresh_alike s a
  have hfree := h.alike halike
  have hd' := halike.disconnecting.trans hd
  unfold St.opening
  generalize (if s.socket then s else s.fresh a) = t at hfree hd'
  refine .of_turn hfree.conn ?_ hfree.rotations hfree.connected hfree.fired hfree.log (fun _ => ?_) fun hb => ?_
  · have := hfree.turns
    simp only [St.turns, St.pleading] at this ⊢
    omega
  · simp only [St.connectTurns, St.pleading]
    omega
  · simp [St.pleading, hd'] at hb

theorem Free.startConnect (h : Free s a) (hc : s.connecting = false) (hd : s.disconnecting = false) :
    wp startConnect (fun _ t => Ordered t) (fun _ t => Handled t.log) s := by
  have hfree : Free { s with connecting := true } a := { h with }
  rw [wp_startConnect, if_neg (by simp [hc])]
  split
  · exact hfree.giveUpConnecting
  · exact hfree.asyncConnect hd

theorem Free.resolveHandler (h : Free s a) (hc : s.connecting = false) (hd : s.disconnecting = false)
    (endpoints : Option (List Nat)) :
    wp (resolveHandler endpoints) (fun _ t => Ordered t) (fun _ t => Handled t.log) s := by
  rw [wp_resolveHandler]
  cases endpoints with
  | none => exact h.giveUpConnecting
  | some l =>
    have hfree : Free { s with endpoints := s.endpoints ++ l } a := { h with }
    exact hfree.posted hc rfl rfl fun hb => by simp [hd] at hb

theorem Free.connectFailed (h : Free s a) (hc : s.connecting = false) (hd : s.disconnecting = false) :
    wp connectFailed (fun _ t => Ordered t) (fun _ t => Handled t.log) s := by
  have halike : Alike s s.refused := by
    unfold St.refused
    split
    · exact closed_alike s
    · exact ⟨rfl, rfl, rfl, rfl, rfl, rfl, rfl, rfl, rfl, Iff.rfl⟩
  have hrefused := h.alike halike
  rw [wp_connectFailed]
  cases s.endpoints with
  | nil => exact hrefused.handled
  | cons _ rest =>
    have hfree : Free { s.refused with endpoints := rest } a := { hrefused with }
    exact hfree.posted (halike.connecting.trans hc) rfl rfl fun hb => by
      simp [show s.refused.disconnecting = false from halike.disconnecting.trans hd] at hb

/-- An established connection is a turn itself. -/
theorem Free.established (h : Free s a) (hc : s.connecting = false) (hd : s.disconnecting = false) :
    Ordered (s.established a) where
  one := by
    have hturns : (s.established a).turns = 0 := h.turns
    have hrotations : (s.established a).rotations = 0 := h.rotations
    rw [hturns, hrotations]
    rfl
  unbound hb := by
    have hconn : (s.established a).conn = some a := h.conn
    simp [hconn] at hb
  bound _ := ⟨h.rotations, h.fired⟩
  connecting hb := by simp [St.established, St.updateUri, hc] at hb
  disconnecting hb := by simp [St.established, St.updateUri, hd] at hb
  handled := h.handled

theorem Ordered.login (h : Ordered s) (hconn : s.conn = some a) :
    wp (login E) (fun _ t => Ordered t) (fun _ t => Handled t.log) s := by
  have hgreeting : Ordered (s.greeting a) := { h with }
  rw [wp_login hconn]
  split
  · exact wp_mono ((send_sent _).from_ _) (fun _ t ht => hgreeting.alike ht.idle.alike)
      fun _ t ht => ht.1.idle.alike.handled hgreeting.handled
  · exact h.handled

theorem Free.connectEstablished (h : Free s a) (hc : s.connecting = false) (hd : s.disconnecting = false)
    (handshakeFails : Bool) :
    wp (connectEstablished E handshakeFails) (fun _ t => Ordered t) (fun _ t => Handled t.log) s := by
  have hestablished := h.established hc hd
  have hconn : (s.established a).conn = some a := h.conn
  rw [wp_connectEstablished, h.conn]
  show if _ then _ else _
  split
  · refine hestablished.alike (Idle.alike ⟨rfl, ⟨1, rfl⟩, ⟨[], rfl, by simp⟩, ?_⟩)
    exact (St.updateUri_processed (Uri.markUnrecoverable_processed _)).uris
  · exact hestablished.login hconn

theorem Free.connectHandler (h : Free s a) (hd : s.disconnecting = false) (ec handshakeFails : Bool) :
    wp (connectHandler E ec handshakeFails) (fun _ t => Ordered t) (fun _ t => Handled t.log) s := by
  have hfree : Free { s with connecting := false } a := { h with }
  rw [wp_connectHandler]
  split
  · split
    · exact hfree.connectFailed rfl hd
    · exact hfree.connectEstablished rfl hd handshakeFails
  · exact hfree.handled

theorem Ordered.workloopTimerElapsed (h : Ordered s) (aborted : Bool) :
    wp (workloopTimerElapsed E aborted) (fun _ t => Ordered t) (fun _ t => Handled t.log) s := by
  cases aborted with
  | true => exact wp_workloopTimerElapsed_true.mpr h
  | false =>
    cases hc : s.conn with
    | none => exact (wp_workloopTimerElapsed_none hc).mpr h
    | some a =>
      refine wp_workloopTimerElapsed_of hc (fun t ht _ => ?_) (fun t ht _ => ?_) fun _ t ht => ?_
      · exact h.alike (ht.idle.alike.trans (closed_alike t))
      · exact h.alike (ht.alike.trans (armed_alike t _))
      · exact ht.idle.alike.handled h.handled

theorem Ordered.rests (h : Ordered s) {m : M Unit} (hm : Rests m) :
    wp m (fun _ t => Ordered t) (fun _ t => Handled t.log) s :=
  wp_mono (hm.from_ s) (fun _ _ ht => h.alike ht.alike) fun _ _ ht => ht.1.alike.handled h.handled

/-- While `rotateConnect` is queued there is no connection. -/
theorem Ordered.unbound_of_rotate (h : Ordered (s.cons .rotateConnect)) : s.conn = none := by
  have hrotations : (s.cons .rotateConnect).rotations = s.rotations + 1 := List.countP_cons_of_pos rfl
  by_contra hne
  have := (h.bound hne).1
  omega

/-- `rotateConnect` takes the pool manager's turn: no turn of the client is left. -/
theorem Ordered.rotating (h : Ordered (s.cons .rotateConnect)) :
    s.turns = 0 ∧ s.rotations = 0 ∧ s.connected = false := by
  have hrotations : (s.cons .rotateConnect).rotations = s.rotations + 1 := List.countP_cons_of_pos rfl
  have hturns : (s.cons .rotateConnect).turns = s.turns := by simp [St.turns, St.cons, Handler.isTurn]
  have hone := h.one
  have hconnected : (s.cons .rotateConnect).connected.toNat = 0 := by omega
  exact ⟨by omega, by omega, by simpa [St.cons] using hconnected⟩

/-- The new client has a free connection. -/
theorem Ordered.rebound (h : Ordered (s.cons .rotateConnect)) (a : Nat) : Free (s.rebound a) a := by
  obtain ⟨hturns, hrotations, -⟩ := h.rotating
  have hsub : (s.queue.filter Handler.ofManager).Sublist s.queue := List.filter_sublist
  have hturn := hsub.countP_le (p := Handler.isTurn)
  have hrotate := hsub.countP_le (p := Handler.isRotate)
  simp only [St.turns, St.rotations] at hturns hrotations
  refine ⟨rfl, ?_, ?_, rfl, rfl, ?_⟩
  · simp only [St.turns, St.rebound, St.updateUri, St.newClient]
    omega
  · simp only [St.rotations, St.rebound, St.updateUri, St.newClient]
    omega
  · have hlog : Out.finalizing none ∉ s.log := h.handled.bound
    simpa [St.rebound, St.updateUri] using hlog

/-- The pool manager's turn: no connection, and no turn of the client. -/
theorem Ordered.rotateConnect (h : Ordered (s.cons .rotateConnect)) (choice : Option (Nat × Bool)) :
    wp (rotateConnect choice) (fun _ t => Ordered t) (fun _ t => Handled t.log) s := by
  obtain ⟨hs, hrotations, hconnected⟩ := h.rotating
  have hc := h.connecting_eq_false rfl hs
  have hd := h.disconnecting_eq_false rfl hs
  have hunbound := h.unbound_of_rotate
  have hnot : (s.started && s.isConnected) = false := by simp [St.isConnected, hconnected]
  rw [wp_rotateConnect, hnot, if_neg Bool.false_ne_true]
  cases choice with
  | none =>
    exact {
      one := by rw [hs, hconnected, hrotations]; simp
      unbound := fun _ => ⟨hs, hconnected⟩
      bound := fun hne => absurd hunbound hne
      connecting := fun hb => by simp [hc] at hb
      disconnecting := fun hb => by simp [hd] at hb
      handled := h.handled }
  | some choice =>
    obtain ⟨a, delayed⟩ := choice
    have hfree := h.rebound a
    show if _ then _ else _
    split
    · refine .of_turn hfree.conn ?_ hfree.rotations hfree.connected hfree.fired hfree.log
        (fun hb => by cases hb) (fun hb => by cases hb)
      have hpending : s.reconnectPending = false := by
        simp only [St.turns] at hs
        have : s.reconnectPending.toNat = 0 := by omega
        simpa using this
      have := hfree.turns
      simp only [St.turns, show (s.rebound a).reconnectPending = false from hpending] at this ⊢
      simp at this ⊢
      omega
    · exact hfree.connect rfl rfl

theorem Ordered.run {k : Handler} (h : Ordered (s.cons k)) (choice : Option (Nat × Bool))
    (hin : k = .disconnect → s.disconnecting = true ∨ s.connected = true) :
    wp (runHandler E choice k) (fun _ t => Ordered t) (fun _ t => Handled t.log) s := by
  cases k with
  | startConnect =>
    obtain ⟨a, hfree⟩ := h.free rfl
    exact hfree.startConnect (h.connecting_eq_false rfl hfree.turns) (h.disconnecting_eq_false rfl hfree.turns)
  | disconnect => exact (h.of_cons rfl).disconnect (hin rfl)
  | disconnectFinalize =>
    obtain ⟨a, hfree⟩ := h.free rfl
    rw [runHandler, wp_disconnectFinalize, hfree.conn]
    exact hfree.finalized (h.connecting_eq_false rfl hfree.turns)
  | resolveHandler endpoints =>
    obtain ⟨a, hfree⟩ := h.free rfl
    exact hfree.resolveHandler (h.connecting_eq_false rfl hfree.turns)
      (h.disconnecting_eq_false rfl hfree.turns) endpoints
  | connectHandler ec handshakeFails =>
    obtain ⟨a, hfree⟩ := h.free rfl
    exact hfree.connectHandler (h.disconnecting_eq_false rfl hfree.turns) ec handshakeFails
  | workloopTimerElapsed aborted => exact (h.of_cons rfl).workloopTimerElapsed aborted
  | onRecvSocketDataCompleted data => exact (h.of_cons rfl).rests (onRecvSocketDataCompleted_rests data)
  | onSendSocketDataCompleted ec => exact (h.of_cons rfl).rests (onSendSocketDataCompleted_rests ec)
  | onSSLShutdownCompleted =>
    obtain ⟨a, hfree⟩ := h.free rfl
    have hcleared : Free { s with pleas := Pleas.clear s.now } a := { hfree with }
    rw [runHandler, wp_onSSLShutdownCompleted]
    exact hcleared.posted (h.connecting_eq_false rfl hfree.turns) rfl rfl fun _ => rfl
  | processResponse response =>
    exact (h.of_cons rfl).rests (processResponse_tame response).rests
  | rotateConnect => exact h.rotateConnect choice
  | reconnectTimerElapsed =>
    obtain ⟨a, hfree⟩ := h.free rfl
    rw [runHandler, wp_reconnectTimerElapsed, if_neg (by simp [St.isConnected, hfree.connected])]
    exact hfree.connect (h.connecting_eq_false rfl hfree.turns) (h.disconnecting_eq_false rfl hfree.turns)

/-! ## The runs -/

/-- What holds in every state of an orderly run: of a crash, only the observations before it. -/
structure Orderly (s : St) : Prop where
  handled : Handled s.log
  ordered : s.crashed = none → Ordered s

theorem Ordered.orderly (h : Ordered s) : Orderly s := ⟨h.handled, fun _ => h⟩

theorem orderly_call {m : M Unit} (h : wp m (fun _ t => Ordered t) (fun _ t => Handled t.log) s) : Orderly (call m s) :=
  call_of_wp (wp_mono h (fun _ _ ht => ht.orderly) fun _ _ ht => ⟨ht, nofun⟩)

theorem push_alike (s : St) {k : Handler} (hk : k.isAside = true) : Alike s (s.push k) :=
  alike_of_aside rfl (by simpa using hk) rfl rfl Iff.rfl

/-- A turn that ends passes to its handler. -/
theorem Fired.alike {e : Ev} (hf : Fired E s e t) (he : e.isCompletion = true) : Alike s t := by
  cases hf with
  | timerExpires _ _ => exact { push_alike { s with timer := none } rfl with }
  | @resolved endpoints hpos =>
    refine ⟨?_, ?_, ?_, ?_, rfl, rfl, rfl, rfl, rfl, Iff.rfl⟩
    · rw [turns_push]
      simp only [St.turns, Handler.isTurn, if_true]
      omega
    · exact connectTurns_push _ _
    · exact partTurns_push _ _
    · exact rotations_push _ _
  | @connectCompletes ec handshakeFails hpos =>
    refine ⟨?_, ?_, ?_, ?_, rfl, rfl, rfl, rfl, rfl, Iff.rfl⟩
    · rw [turns_push]
      simp only [St.turns, Handler.isTurn, if_true]
      omega
    · rw [connectTurns_push]
      simp only [St.connectTurns, Handler.isConnect, if_true]
      omega
    · exact partTurns_push _ _
    · exact rotations_push _ _
  | received _ _ => exact { push_alike { s with reads := s.reads - 1 } rfl with }
  | readFails _ => exact { push_alike { s with reads := s.reads - 1 } rfl with }
  | written _ => exact { push_alike s (k := .onSendSocketDataCompleted none) rfl with log := by simp [St.push] }
  | writeFails _ => exact { push_alike s (k := .onSendSocketDataCompleted _) rfl with }
  | shutdownCompletes hpos =>
    refine ⟨?_, ?_, ?_, ?_, rfl, rfl, rfl, rfl, rfl, Iff.rfl⟩
    · rw [turns_push]
      simp only [St.turns, Handler.isTurn, if_true]
      omega
    · exact connectTurns_push _ _
    · rw [partTurns_push]
      simp only [St.partTurns, Handler.isPart, if_true]
      omega
    · exact rotations_push _ _
  | reconnectTimerExpires hpending =>
    refine ⟨?_, ?_, ?_, ?_, rfl, rfl, rfl, rfl, rfl, Iff.rfl⟩
    · rw [turns_push]
      simp [St.turns, Handler.isTurn, hpending]
    · exact connectTurns_push _ _
    · exact partTurns_push _ _
    · exact rotations_push _ _
  | advance => exact ⟨rfl, rfl, rfl, rfl, rfl, rfl, rfl, rfl, rfl, Iff.rfl⟩
  | _ => cases he

theorem Ordered.step {e : Ev} (h : Ordered s) (hin : inOrder s e = true) (hf : Fired E s e t) : Orderly t := by
  cases he : e.isCompletion with
  | true => exact (h.alike (hf.alike he)).orderly
  | false =>
    cases hf with
    | @run choice k queue hq =>
      rw [St.eq_cons hq] at h
      refine orderly_call (h.run choice fun hk => ?_)
      subst hk
      simpa [inOrder, hq] using hin
    | callDisconnect _ => exact orderly_call (h.disconnect (by simpa [inOrder] using hin))
    | stopConnected _ hc =>
      have hstopping : Ordered { s with stopping := true } := { h with }
      refine orderly_call (hstopping.disconnect (.inr ?_))
      simp only [St.isConnected, Bool.and_eq_true] at hc
      exact hc.1
    | stopUnconnected _ =>
      have hturns : ({ s with stopping := true, reconnectPending := false } : St).turns ≤ s.turns := by
        simp [St.turns]
      refine Ordered.orderly { h with one := ?_, unbound := fun hc => ⟨?_, (h.unbound hc).2⟩ }
      · exact (Nat.add_le_add_right (Nat.add_le_add_right hturns _) _).trans h.one
      · exact Nat.le_zero.mp (hturns.trans (h.unbound hc).1.le)
    | submitSolution _ => exact orderly_call (h.rests (submitSolution_rests _))
    | submitHashrate _ => exact orderly_call (h.rests (submitHashrate_rests _ _))
    | _ => cases he

theorem ordered_init (uris : Nat → Uri) : Ordered (init uris) where
  one := Nat.le_refl 1
  unbound _ := ⟨rfl, rfl⟩
  bound hc := absurd rfl hc
  connecting := nofun
  disconnecting := nofun
  handled := ⟨nofun, Nat.zero_le 1⟩

/-- In a run in which every `disconnect` is in order. -/
theorem orderly_of_run (h : Run E (fun s e => inOrder s e = true) s) : Orderly s := by
  refine run_invariant (fun uris _ => (ordered_init uris).orderly) (fun s e t hs hcrash hin hf => ?_) h
  exact (hs.ordered hcrash).step hin hf

/-- If every `disconnect` finds an established connection or the guard of another one,
    `disconnect_finalize` always has a connection, and each loss is reported once. -/
theorem loss_handled_once (h : Run E (fun s e => inOrder s e = true) s) : Handled s.log :=
  (orderly_of_run h).handled

def invalidMessage : String × Json := ("\x7b\"jsonrpc\":1\x7d", .obj [("jsonrpc", .int 1)])

/-- One invalid message: the connection is lost and reported. -/
theorem one_invalid_message : ∃ s, Run (tableEnv [invalidMessage]) (fun s e => inOrder s e = true) s ∧
    Out.onDisconnected ∈ s.log ∧ Handled s.log := by
  obtain ⟨s, hrun, hlost⟩ := run_of_trace (tableEnv [invalidMessage]) (C := inOrder)
    (fun _ => plainUri_fresh STRATUM (.inl (by decide)))
    (connectTrace ++ [.received (lineOf invalidMessage), .run none, .run none])
    (p := fun s => Out.onDisconnected ∈ s.log) (by decide +kernel)
  exact ⟨s, hrun, hlost, loss_handled_once hrun⟩

/-- Two of them in one transmission post `disconnect` twice. The first one is finalized, which
    releases the guard and unsets the connection, and so is the second one. -/
theorem finalized_twice : ∃ s, Reach (tableEnv [invalidMessage]) s ∧ Out.finalizing none ∈ s.log :=
  reach_of_trace (tableEnv [invalidMessage]) (fun _ => plainUri_fresh STRATUM (.inl (by decide)))
    (connectTrace ++ [.received (lineOf invalidMessage ++ lineOf invalidMessage), .run none, .run none, .run none])
    (by decide +kernel)

end CoreMiner.Stratum
