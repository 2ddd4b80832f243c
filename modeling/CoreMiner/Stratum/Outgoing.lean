/-
  CoreMiner.Stratum.Outgoing — the lines the client writes (`XcbStratumClient.cpp`: `send`,
  `sendSocketData`, `onSendSocketDataCompleted`, `connect_handler`, `disconnect_finalize`).

  A line waits in `m_txQueue`, then in `m_sendBuffer` while its write is under way, until it
  is written. While the connection is up and no write on it has failed, what was written,
  what is in the buffer and what is in the queue are together the lines passed to `send`
  since `connect_handler`, in order, and a line that waits has a write ahead of it
  (`lines_in_order`). This needs that `connect_handler` does not run before the completions
  of the writes of an earlier connection are delivered (`delivered`): a write that completes
  later would be taken for one of the new connection.
-/

import CoreMiner.Stratum.Receptive

namespace CoreMiner.Stratum

open DevCore EthCore Lib Prog

variable {E : Env} {s t : St} {a : Nat}

/-! ## What waits -/

def render (lines : List String) : List Char := lines.flatMap fun line => line.toList ++ ['\n']

theorem render_append (xs ys : List String) : render (xs ++ ys) = render xs ++ render ys := List.flatMap_append

def Handler.isSendCompletion : Handler → Bool
  | onSendSocketDataCompleted _ => true
  | _ => false

def St.InFlight (s : St) : Prop := s.writes ≠ [] ∨ ∃ ec, .onSendSocketDataCompleted ec ∈ s.queue

def St.Up (s : St) : Prop := s.isConnected = true ∧ s.isOpen = true

/-- What was written and what waits is what was sent. -/
def St.Balanced (s : St) : Prop := s.written ++ s.sendBuffer ++ render s.txQueue = render s.sent

/-- What `m_txPending` and the buffer say about the writes, connected or not. -/
structure Queued (s : St) : Prop where
  pending : s.txPending = true → s.InFlight
  /-- The last write takes all of the buffer, and a write that fails empties it. -/
  buffer : s.sendBuffer = [] ∨ (∃ n, s.writes.getLast? = some n ∧ s.sendBuffer.length ≤ n) ∨
    ∃ ec, .onSendSocketDataCompleted (some ec) ∈ s.queue

structure Outgoing (s : St) : Prop extends Queued s where
  balanced : s.Up → s.writeFailed = false → s.Balanced
  waiting : s.Up → s.writeFailed = false → s.txQueue ≠ [] → s.txPending = true

structure Aside (s t : St) : Prop where
  tx : t.txPending = s.txPending ∧ t.txQueue = s.txQueue ∧ t.sendBuffer = s.sendBuffer ∧ t.writes = s.writes
  history : t.sent = s.sent ∧ t.written = s.written ∧ t.writeFailed = s.writeFailed
  queue : ∃ new, t.queue = s.queue ++ new

theorem Aside.of_eq (htx :
    t.txPending = s.txPending ∧ t.txQueue = s.txQueue ∧ t.sendBuffer = s.sendBuffer ∧ t.writes = s.writes)
    (hh : t.sent = s.sent ∧ t.written = s.written ∧ t.writeFailed = s.writeFailed)
      (hq : t.queue = s.queue) : Aside s t :=
  ⟨htx, hh, [], by simp [hq]⟩

theorem Queued.aside (h : Queued s) (ha : Aside s t) : Queued t := by
  obtain ⟨hpending, -, hbuffer, hwrites⟩ := ha.tx
  obtain ⟨new, hnew⟩ := ha.queue
  have hmem : ∀ k ∈ s.queue, k ∈ t.queue := fun k hk => hnew ▸ List.mem_append_left _ hk
  constructor
  · rw [hpending, St.InFlight, hwrites]
    exact fun hp => (h.pending hp).imp_right fun ⟨ec, hec⟩ => ⟨ec, hmem _ hec⟩
  · rw [hbuffer, hwrites]
    exact h.buffer.imp_right fun h => h.imp_right fun ⟨ec, hec⟩ => ⟨ec, hmem _ hec⟩

/-- Where no write is under way, the buffer is empty. -/
theorem Queued.landed (h : Queued s) (hflight : ¬ s.InFlight) : s.sendBuffer = [] := by
  rcases h.buffer with hnil | ⟨n, hn, -⟩ | ⟨ec, hec⟩
  · exact hnil
  · exact absurd (.inl (by rintro hnil; simp [hnil] at hn)) hflight
  · exact absurd (.inr ⟨_, hec⟩) hflight

theorem Outgoing.aside (h : Outgoing s) (ha : Aside s t) (hup : t.Up → s.Up) : Outgoing t := by
  have hq := h.toQueued.aside ha
  obtain ⟨hpending, htx, hbuffer, -⟩ := ha.tx
  obtain ⟨hsent, hwritten, hfailed⟩ := ha.history
  refine { hq with balanced := fun hu hw => ?_, waiting := fun hu hw => ?_ }
  · rw [St.Balanced, hwritten, hbuffer, htx, hsent]
    exact h.balanced (hup hu) (hfailed ▸ hw)
  · rw [htx, hpending]
    exact h.waiting (hup hu) (hfailed ▸ hw)

theorem Queued.down (h : Queued s) (hdown : ¬ s.Up) : Outgoing s :=
  { h with balanced := fun hu => absurd hu hdown, waiting := fun hu => absurd hu hdown }

theorem not_up_of_shut (h : s.isOpen = false) : ¬ s.Up := fun hu => absurd (h.symm.trans hu.2) nofun

theorem not_up_of_pending (h : s.isPendingState = true) : ¬ s.Up := fun hu => by simp [St.Up, St.isConnected, h] at hu

/-- Aborted writes have their completions queued. -/
theorem Queued.aborted (h : Queued s) : Queued s.aborted := by
  have hqueued : s.writes ≠ [] → .onSendSocketDataCompleted (some .other) ∈ s.aborted.queue := fun hw =>
    List.mem_append_right _ (by simp [St.aborting, hw])
  have hmem : ∀ k ∈ s.queue, k ∈ s.aborted.queue := fun k hk => List.mem_append_left _ hk
  constructor
  · rintro hp
    rcases h.pending hp with hw | ⟨ec, hec⟩
    · exact .inr ⟨_, hqueued hw⟩
    · exact .inr ⟨ec, hmem _ hec⟩
  · rcases h.buffer with hnil | ⟨n, hn, -⟩ | ⟨ec, hec⟩
    · exact .inl hnil
    · exact .inr (.inr ⟨_, hqueued (by rintro hnil; simp [hnil] at hn)⟩)
    · exact .inr (.inr ⟨ec, hmem _ hec⟩)

theorem Queued.closed (h : Queued s) : Outgoing s.closed :=
  Queued.down { h.aborted with } (not_up_of_shut rfl)

/-- The connection is gone, and with it what waits. -/
theorem Queued.finalized (h : Queued s) (a : Nat) : Outgoing (s.finalized a) := by
  have hreleased : Outgoing (s.released a) :=
    Queued.down { pending := nofun, buffer := h.closed.buffer } (not_up_of_shut rfl)
  have hreported : ∀ {t : St}, Outgoing t → Outgoing t.reported := fun ht =>
    ht.aside ⟨⟨rfl, rfl, rfl, rfl⟩, ⟨rfl, rfl, rfl⟩, by
      unfold St.reported St.armed
      split <;> exact ⟨_, by simp [List.append_assoc]; rfl⟩⟩ id
  unfold St.finalized
  split
  · split
    · exact hreleased.aside ⟨⟨rfl, rfl, rfl, rfl⟩, ⟨rfl, rfl, rfl⟩, _, rfl⟩ id
    · exact hreported (hreleased.aside (.of_eq ⟨rfl, rfl, rfl, rfl⟩ ⟨rfl, rfl, rfl⟩ rfl) id)
  · exact hreported hreleased

/-! ## Sending -/

abbrev Flows (m : M Unit) (s : St) : Prop := wp m (fun _ t => Outgoing t) (fun _ _ => True) s

/-- The next write takes what waits. -/
theorem sendSocketData_flows (hb : s.Up → s.writeFailed = false → s.Balanced) (hne : s.txQueue ≠ []) :
    Flows sendSocketData s := by
  refine wp_sendSocketData.mpr ?_
  split
  case isTrue hc =>
    have hdown : s.isConnected = false := by simpa [hne] using hc
    exact Queued.down ⟨nofun, .inl rfl⟩ fun hu => absurd (hdown.symm.trans hu.1) nofun
  case isFalse =>
    cases s.conn with
    | none => trivial
    | some a =>
      show if _ then _ else _
      split
      · refine ⟨⟨fun _ => .inl (by simp [St.writing]), .inr (.inl ⟨_, List.getLast?_concat, Nat.le_refl _⟩)⟩,
          fun hu hw => ?_, fun _ _ h => absurd rfl h⟩
        have hold : s.written ++ s.sendBuffer ++ render s.txQueue = render s.sent := hb hu hw
        show s.written ++ (s.sendBuffer ++ render s.txQueue) ++ render [] = render s.sent
        rw [← hold]
        simp [render]
      · trivial

theorem send_flows (h : Outgoing s) (jReq : Json) : Flows (send E jReq) s := by
  have hqueued : s.Up → s.writeFailed = false → (s.queued (E.writeString jReq)).Balanced := fun hu hw => by
    have hold : s.written ++ s.sendBuffer ++ render s.txQueue = render s.sent := h.balanced hu hw
    show s.written ++ s.sendBuffer ++ render (s.txQueue ++ [_]) = render (s.sent ++ [_])
    rw [render_append, render_append, ← hold, List.append_assoc _ (render s.txQueue)]
  refine wp_send.mpr ?_
  split
  case isTrue hp => exact { h with balanced := hqueued, waiting := fun _ _ _ => hp }
  case isFalse => exact sendSocketData_flows hqueued (by simp [St.queued])

/-! ## Messages and ticks -/

def InOrder (s t : St) : Prop := Outgoing s → Outgoing t

theorem InOrder.of_eq
    (htx : t.txPending = s.txPending ∧ t.txQueue = s.txQueue ∧ t.sendBuffer = s.sendBuffer ∧ t.writes = s.writes)
    (hh : t.sent = s.sent ∧ t.written = s.written ∧ t.writeFailed = s.writeFailed) (hq : t.queue = s.queue)
    (hup : t.Up → s.Up) : InOrder s t := fun h => h.aside (.of_eq htx hh hq) hup

theorem InOrder.push (s : St) (k : Handler) : InOrder s (s.push k) := fun h =>
  h.aside ⟨⟨rfl, rfl, rfl, rfl⟩, ⟨rfl, rfl, rfl⟩, [k], rfl⟩ id

/-- A null pointer is all that can stop `send`, and it stops the program. -/
theorem inOrder_receptive : Receptive E Stop.isStd InOrder where
  refl _ := id
  trans _ _ _ h h' := h' ∘ h
  caught _ := id
  inner s t h := by
    obtain ⟨_, _, _, _, _, _, _, -, rfl⟩ := h
    exact .of_eq ⟨rfl, rfl, rfl, rfl⟩ ⟨rfl, rfl, rfl⟩ rfl id
  sends jReq := by
    refine ⟨fun s => wp_iff_exec.mpr ⟨fun a t ht hs => ?_, fun x t hx hstd => ?_⟩⟩
    · exact (wp_iff_exec.mp (send_flows hs jReq)).1 a t ht
    · have hnull := ((wp_iff_exec.mp ((send_sent jReq).from_ s)).2 x t hx).2
      exact absurd (hstd.symm.trans hnull) nofun
  posts s := .push s _
  marks s a := .of_eq ⟨rfl, rfl, rfl, rfl⟩ ⟨rfl, rfl, rfl⟩ rfl id
  replies s o _ _ _ := .of_eq ⟨rfl, rfl, rfl, rfl⟩ ⟨rfl, rfl, rfl⟩ rfl id
  welcomes s a _ := .of_eq ⟨rfl, rfl, rfl, rfl⟩ ⟨rfl, rfl, rfl⟩ rfl id

abbrev Straight {α : Type} (m : M α) : Prop := KeepsIf Stop.isStd InOrder m

theorem Straight.flows {m : M Unit} (hm : Straight m) (h : Outgoing s) : Flows m s :=
  wp_mono (hm.from_ s) (fun _ _ ht => ht h) fun _ _ _ => trivial

theorem post_straight (k : Handler) : Straight (post k) := KeepsIf.modify fun s => .push s k

theorem closeSocket_straight : Straight closeSocket := ⟨fun _ => wp_closeSocket.mpr fun h => h.closed⟩

theorem Outgoing.armed (h : Outgoing s) (wait : Wait) : Outgoing (s.armed wait) := by
  refine h.aside ⟨⟨rfl, rfl, rfl, rfl⟩, ⟨rfl, rfl, rfl⟩, ?_⟩ id
  unfold St.armed
  split
  · exact ⟨_, rfl⟩
  · exact ⟨[], by simp⟩

theorem popEndpoint_straight : Straight popEndpoint := by
  refine ⟨fun s => wp_popEndpoint.mpr ?_⟩
  cases s.endpoints with
  | nil => exact fun _ => id
  | cons _ rest => exact .of_eq ⟨rfl, rfl, rfl, rfl⟩ ⟨rfl, rfl, rfl⟩ rfl id

theorem workloopTimerElapsed_straight (aborted : Bool) : Straight (workloopTimerElapsed E aborted) := by
  have h := inOrder_receptive (E := E)
  have hclear : Straight clearResponsePleas := h.modify fun _ => ⟨_, _, _, _, _, _, _, rfl, rfl⟩
  have htimeOut : Straight timeOut := h.bind popEndpoint_straight fun _ => h.bind hclear fun _ => post_straight _
  have hkeepAlive : ∀ u, Straight (keepAlive E u) := fun u => h.get_bind fun s => by
    cases s.session with
    | none => exact h.pure _
    | some session => exact h.when fun _ => h.sends _
  refine h.get_bind fun s => ?_
  cases s.conn with
  | none => exact h.pure _
  | some a =>
    refine h.when fun _ => h.bind (hkeepAlive _) fun _ => h.get_bind fun _ =>
      KeepsIf.ite (fun _ => ?_) fun _ => h.bind (h.when fun _ => ?_) fun _ => ?_
    · exact h.get_bind fun _ => h.bind (h.when fun _ => KeepsIf.throw h.refl _) fun _ => closeSocket_straight
    · exact h.get_bind fun _ => h.when fun _ => KeepsIf.ite
        (fun _ => KeepsIf.ite (fun _ => h.bind hclear fun _ => post_straight _) fun _ => htimeOut) fun _ =>
        h.when fun _ => htimeOut
    · exact ⟨fun _ => wp_armWorkloop.mpr fun h => h.armed _⟩

theorem onRecvSocketDataCompleted_straight (data : Option (List Char)) :
    Straight (onRecvSocketDataCompleted E data) := by
  have h := inOrder_receptive (E := E)
  cases data with
  | none => exact h.get_bind fun _ => h.when fun _ => h.bind (h.when fun _ => mark_told h) fun _ => post_straight _
  | some rx =>
    refine onRecvSocketDataCompleted_told h (fun s wp => ?_) (fun s => ?_) rx
    · exact .of_eq ⟨rfl, rfl, rfl, rfl⟩ ⟨rfl, rfl, rfl⟩ rfl id
    · exact .of_eq ⟨rfl, rfl, rfl, rfl⟩ ⟨rfl, rfl, rfl⟩ rfl id

theorem submitSolution_straight (solution : Solution) : Straight (submitSolution E solution) := by
  have h := inOrder_receptive (E := E)
  refine h.get_bind fun s => ?_
  cases s.session with
  | none => exact h.pure _
  | some session =>
    exact h.when fun _ => h.bind (KeepsIf.modify fun _ => .of_eq ⟨rfl, rfl, rfl, rfl⟩ ⟨rfl, rfl, rfl⟩ rfl id) fun _ =>
      h.bind h.getConn fun _ => h.bind (h.raise _) fun _ => h.bind (enqueueResponsePlea_told h) fun _ => h.sends _

theorem submitHashrate_straight (rate : UInt64) (id : String) : Straight (submitHashrate E rate id) := by
  have h := inOrder_receptive (E := E)
  refine h.get_bind fun s => h.when fun _ => h.bind h.getConn fun u => KeepsIf.ite (fun _ => ?_) fun _ => h.sends _
  cases s.session with
  | none => exact KeepsIf.throw h.refl _
  | some session => exact h.sends _

/-! ## Connecting and disconnecting -/

theorem giveUpConnecting_flows (h : Queued s) : Flows giveUpConnecting s := by
  refine wp_giveUpConnecting.mpr ?_
  split
  · trivial
  · exact Queued.finalized (s := { s with connecting := false }) { h with } _

theorem disconnectFinalize_flows (h : Queued s) : Flows disconnectFinalize s := by
  refine wp_disconnectFinalize.mpr ?_
  split
  · trivial
  · exact h.finalized _

theorem disconnect_flows (h : Outgoing s) : Flows disconnect s := by
  refine wp_disconnect.mpr ?_
  have hparting : Queued s.parting := { h with }
  split
  · exact h
  · split
    · split
      · refine wp_shutdownSocket.mpr ?_
        split
        · trivial
        · split
          · exact Queued.down { hparting.aborted with } (not_up_of_pending (Bool.or_true _))
          · exact hparting.aborted.closed.finalized _
      · trivial
    · exact disconnectFinalize_flows hparting

theorem connect_flows (h : Outgoing s) : Flows connect s := by
  refine wp_connect.mpr ?_
  split
  · exact h
  · cases s.conn with
    | none => trivial
    | some a =>
      have htuned : Outgoing s.tuned := { h.armed (.until (s.now + workloopInterval)) with }
      have hdialing : Outgoing (s.dialing a) := by
        unfold St.dialing
        split
        · exact { htuned with }
        · exact { htuned.closed with }
      refine hdialing.aside ?_ ?_
      · unfold St.resolving
        split <;> exact ⟨⟨rfl, rfl, rfl, rfl⟩, ⟨rfl, rfl, rfl⟩, _, rfl⟩
      · unfold St.resolving
        split <;> exact id

theorem startConnect_flows (h : Outgoing s) : Flows startConnect s := by
  refine wp_startConnect.mpr ?_
  have hconnecting : Queued { s with connecting := true } := { h with }
  split
  · exact h
  · split
    · exact giveUpConnecting_flows hconnecting
    · refine wp_asyncConnect.mpr ?_
      split
      · trivial
      · refine Queued.down ?_ (not_up_of_pending ?_)
        · unfold St.opening
          split
          · exact { hconnecting with }
          · exact { hconnecting.closed with }
        · unfold St.opening
          split <;> rfl

theorem rotateConnect_flows (h : Outgoing s) (choice : Option (Nat × Bool)) : Flows (rotateConnect choice) s := by
  refine wp_rotateConnect.mpr ?_
  split
  · exact h
  · cases choice with
    | none => exact h
    | some c =>
      obtain ⟨a, delayed⟩ := c
      have hrebound : Outgoing (s.rebound a) :=
        Queued.down ⟨nofun, .inl rfl⟩ fun hu => absurd hu.1 nofun
      show if _ then _ else _
      split
      · exact { hrebound with }
      · exact connect_flows hrebound

/-- The completions of earlier writes are delivered before `connect_handler` runs. -/
def delivered (s : St) : Ev → Bool
  | .run _ =>
    match s.queue with
    | .connectHandler false _ :: queue => s.writes.isEmpty && queue.all fun k => !k.isSendCompletion
    | _ => true
  | _ => true

theorem connectFailed_flows (h : Queued s) : Flows connectFailed s := by
  refine wp_connectFailed.mpr ?_
  split
  · trivial
  · have hrefused : Outgoing s.refused := by
      unfold St.refused
      split
      case isTrue => exact h.closed
      case isFalse hshut => exact h.down (not_up_of_shut (Bool.eq_false_of_not_eq_true hshut))
    exact hrefused.aside ⟨⟨rfl, rfl, rfl, rfl⟩, ⟨rfl, rfl, rfl⟩, _, rfl⟩ id

/-- A connection starts with nothing to send. -/
theorem Queued.established (h : Queued s) (hflight : ¬ s.InFlight) (a : Nat) :
    Outgoing (s.established a) ∧ (s.established a).sendBuffer = [] := by
  have hbuffer := h.landed hflight
  have hpending : s.txPending = false := Bool.eq_false_of_not_eq_true fun hp => hflight (h.pending hp)
  refine ⟨⟨⟨fun hp => absurd (hpending.symm.trans hp) nofun, .inl hbuffer⟩, fun _ _ => ?_,
    fun _ _ h => absurd rfl h⟩, hbuffer⟩
  show [] ++ s.sendBuffer ++ render [] = render []
  rw [hbuffer]
  rfl

theorem connectEstablished_flows (h : Queued s) (hflight : ¬ s.InFlight) (handshakeFails : Bool) :
    Flows (connectEstablished E handshakeFails) s := by
  refine wp_connectEstablished.mpr ?_
  cases hc : s.conn with
  | none => trivial
  | some a =>
    obtain ⟨hout, hbuffer⟩ := h.established hflight a
    show if _ then _ else _
    split
    · exact hout.aside ⟨⟨rfl, rfl, rfl, rfl⟩, ⟨rfl, rfl, rfl⟩, _, rfl⟩ id
    · refine (wp_login (s := s.established a) hc).mpr ?_
      split
      · have hdrop : (s.established a).sendBuffer.drop 4096 = (s.established a).sendBuffer := by rw [hbuffer]; rfl
        have hgreeting : Outgoing ((s.established a).greeting a) :=
          hout.aside (.of_eq ⟨rfl, rfl, hdrop, rfl⟩ ⟨rfl, rfl, rfl⟩ rfl) id
        exact send_flows hgreeting _
      · trivial

theorem connectHandler_flows (h : Queued s) {ec : Bool} (hflight : ec = false → ¬ s.InFlight) (handshakeFails : Bool) :
    Flows (connectHandler E ec handshakeFails) s := by
  refine wp_connectHandler.mpr ?_
  have hconnecting : Queued { s with connecting := false } := { h with }
  split
  · split
    case isTrue => exact connectFailed_flows hconnecting
    case isFalse hok => exact connectEstablished_flows hconnecting (hflight (by simp_all)) handshakeFails
  · trivial

/-! ## Completions -/

theorem Outgoing.taken {k : Handler} {queue : List Handler} (h : Outgoing s) (hq : s.queue = k :: queue)
    (hk : k.isSendCompletion = false) : Outgoing { s with queue } := by
  have hmem : ∀ ec, .onSendSocketDataCompleted ec ∈ s.queue → .onSendSocketDataCompleted ec ∈ queue := by
    intro ec hec
    rw [hq] at hec
    rcases List.mem_cons.mp hec with rfl | hec
    · cases hk
    · exact hec
  refine ⟨⟨fun hp => ?_, ?_⟩, h.balanced, h.waiting⟩
  · exact (h.pending hp).imp_right fun ⟨ec, hec⟩ => ⟨ec, hmem _ hec⟩
  · exact h.buffer.imp_right fun h => h.imp_right fun ⟨ec, hec⟩ => ⟨ec, hmem _ hec⟩

/-- A write is done: the next one takes what has come to wait in the meantime. -/
theorem sent_flows {queue : List Handler} (h : Outgoing s) (hq : s.queue = .onSendSocketDataCompleted none :: queue) :
    Flows (onSendSocketDataCompleted none) { s with queue } := by
  have hbuffer : s.sendBuffer = [] ∨ (∃ n, s.writes.getLast? = some n ∧ s.sendBuffer.length ≤ n) ∨
      ∃ ec, .onSendSocketDataCompleted (some ec) ∈ queue := by
    refine h.buffer.imp_right fun h => h.imp_right fun ⟨ec, hec⟩ => ⟨ec, ?_⟩
    simpa [hq] using hec
  have hstamp : wp stampTransmission (fun _ t => ∃ session, t = { s with queue, session }) (fun _ _ => True)
      { s with queue } := by
    have hR : Along fun s t : St => ∃ session, t = { s with session } :=
      ⟨fun _ => ⟨_, rfl⟩, fun _ _ _ ⟨_, hx⟩ ⟨y, hy⟩ => ⟨y, by rw [hy, hx]⟩⟩
    have hkept : Kept (fun s t : St => ∃ session, t = { s with session }) stampTransmission :=
      hR.get_bind fun _ => hR.when fun _ => hR.bind hR.getConn
        fun _ => hR.when fun _ => hR.onSession (fun _ _ => ⟨_, rfl⟩) _
    exact wp_mono (hkept.from_ _) (fun _ _ ht => ht) fun _ _ _ => trivial
  rw [Flows, onSendSocketDataCompleted, wp_bind]
  refine wp_mono hstamp (fun _ t ht => ?_) fun _ _ _ => trivial
  obtain ⟨session, rfl⟩ := ht
  rw [wp_bind, wp_get, wp_ite]
  split
  case isTrue hempty =>
    have hempty : s.txQueue = [] := List.isEmpty_iff.mp hempty
    exact ⟨⟨nofun, hbuffer⟩, h.balanced, fun _ _ hne => absurd hempty hne⟩
  case isFalse hne => exact sendSocketData_flows h.balanced fun hnil => hne (List.isEmpty_iff.mpr hnil)

/-- A write that fails takes everything that waits with it. -/
theorem sendFailed_flows (s : St) (ec : WriteError) : Flows (onSendSocketDataCompleted (some ec)) s := by
  have h : Along InOrder := ⟨fun _ => id, fun _ _ _ h h' => h' ∘ h⟩
  have hpost : Kept InOrder (post .disconnect) := Keeps.modify fun s => .push s _
  have hposts : Kept InOrder (do
      when (ec = .sslProtocolIsShutdown) (post .disconnect)
      let s ← get
      when s.isConnected (post .disconnect)) :=
    h.bind (h.when fun _ => hpost) fun _ => h.get_bind fun _ => h.when fun _ => hpost
  rw [Flows, onSendSocketDataCompleted, wp_bind, wp_modify]
  exact wp_mono (hposts.from_ _) (fun _ _ ht => ht ⟨⟨nofun, .inl rfl⟩, nofun, nofun⟩) fun _ _ _ => trivial

theorem Outgoing.written {n : Nat} {writes : List Nat} (h : Outgoing s) (hw : s.writes = n :: writes) :
    Outgoing ({ s with
      writes := writes
      sendBuffer := s.sendBuffer.drop n
      written := s.written ++ s.sendBuffer.take n
      log := .wrote (s.sendBuffer.take n) :: s.log }.push (.onSendSocketDataCompleted none)) := by
  refine ⟨⟨fun _ => .inr ⟨none, List.mem_append_right _ List.mem_cons_self⟩, ?_⟩, fun hu hf => ?_, h.waiting⟩
  · rcases h.buffer with hnil | ⟨m, hm, hle⟩ | ⟨ec, hec⟩
    · exact .inl (by show s.sendBuffer.drop n = []; rw [hnil, List.drop_nil])
    · rw [hw] at hm
      cases writes with
      | nil =>
        cases hm
        exact .inl (List.drop_eq_nil_of_le hle)
      | cons m' rest =>
        refine .inr (.inl ⟨m, by rw [← hm, List.getLast?_cons_cons]; rfl, ?_⟩)
        show (s.sendBuffer.drop n).length ≤ m
        rw [List.length_drop]
        omega
    · exact .inr (.inr ⟨ec, List.mem_append_left _ hec⟩)
  · show s.written ++ s.sendBuffer.take n ++ s.sendBuffer.drop n ++ render s.txQueue = render s.sent
    rw [List.append_assoc s.written, List.take_append_drop]
    exact h.balanced hu hf

theorem Outgoing.writeFails (h : Outgoing s) (writes : List Nat) (ec : WriteError) :
    Outgoing ({ s with writes := writes }.push (.onSendSocketDataCompleted (some ec))) := by
  have hqueued : .onSendSocketDataCompleted (some ec) ∈ s.queue ++ [.onSendSocketDataCompleted (some ec)] :=
    List.mem_append_right _ List.mem_cons_self
  exact ⟨⟨fun _ => .inr ⟨_, hqueued⟩, .inr (.inr ⟨ec, hqueued⟩)⟩, h.balanced, h.waiting⟩

/-! ## Runs -/

theorem runHandler_flows {choice : Option (Nat × Bool)} {k : Handler} {queue : List Handler} (h : Outgoing s)
    (hq : s.queue = k :: queue) (hd : delivered s (.run choice) = true) :
    Flows (runHandler E choice k) { s with queue } := by
  have hR := inOrder_receptive (E := E)
  have ht := h.taken hq
  cases k with
  | startConnect => exact startConnect_flows (ht rfl)
  | disconnect => exact disconnect_flows (ht rfl)
  | disconnectFinalize => exact disconnectFinalize_flows (ht rfl).toQueued
  | resolveHandler endpoints =>
    refine wp_resolveHandler.mpr ?_
    cases endpoints with
    | none => exact giveUpConnecting_flows (ht rfl).toQueued
    | some l => exact (ht rfl).aside ⟨⟨rfl, rfl, rfl, rfl⟩, ⟨rfl, rfl, rfl⟩, _, rfl⟩ id
  | connectHandler ec handshakeFails =>
    refine connectHandler_flows (ht rfl).toQueued (fun hec hflight => ?_) handshakeFails
    subst hec
    simp only [delivered, hq, Bool.and_eq_true, List.isEmpty_iff, List.all_eq_true, Bool.not_eq_true'] at hd
    rcases hflight with hw | ⟨ec, hec⟩
    · exact hw hd.1
    · exact absurd (hd.2 _ hec) nofun
  | workloopTimerElapsed aborted => exact (workloopTimerElapsed_straight aborted).flows (ht rfl)
  | onRecvSocketDataCompleted data => exact (onRecvSocketDataCompleted_straight data).flows (ht rfl)
  | onSendSocketDataCompleted ec =>
    cases ec with
    | none => exact sent_flows h hq
    | some ec => exact sendFailed_flows _ ec
  | onSSLShutdownCompleted =>
    exact wp_onSSLShutdownCompleted.mpr ((ht rfl).aside ⟨⟨rfl, rfl, rfl, rfl⟩, ⟨rfl, rfl, rfl⟩, _, rfl⟩ id)
  | processResponse response => exact Straight.flows (processResponse_told hR response) (ht rfl)
  | rotateConnect => exact rotateConnect_flows (ht rfl) choice
  | reconnectTimerElapsed =>
    refine wp_reconnectTimerElapsed.mpr ?_
    split
    · exact ht rfl
    · exact connect_flows (ht rfl)

theorem call_flows {m : M Unit} (h : Flows m s) (hrun : (call m s).crashed = none) : Outgoing (call m s) := by
  refine call_of_wp (P := fun t => t.crashed = none → Outgoing t)
    (wp_mono h (fun _ _ h _ => h) fun _ _ _ hcrash => ?_) hrun
  cases hcrash

theorem Outgoing.fired {e : Ev} (h : Outgoing s) (hd : delivered s e = true) (hf : Fired E s e t)
    (hrun : t.crashed = none) : Outgoing t := by
  cases hf with
  | run hq => exact call_flows (runHandler_flows h hq hd) hrun
  | timerExpires _ _ | resolved _ | connectCompletes _ | received _ _ | readFails _ | shutdownCompletes _
  | reconnectTimerExpires _ => exact h.aside ⟨⟨rfl, rfl, rfl, rfl⟩, ⟨rfl, rfl, rfl⟩, _, rfl⟩ id
  | written hw => exact h.written hw
  | writeFails _ => exact h.writeFails _ _
  | advance => exact { h with }
  | callDisconnect _ => exact call_flows (disconnect_flows h) hrun
  | stopConnected _ _ => exact call_flows (disconnect_flows (s := { s with stopping := true }) { h with }) hrun
  | stopUnconnected _ => exact { h with }
  | submitSolution _ => exact call_flows ((submitSolution_straight _).flows h) hrun
  | submitHashrate _ => exact call_flows ((submitHashrate_straight _ _).flows h) hrun

theorem outgoing_of_run (h : Run E (fun s e => delivered s e = true) s) : s.crashed = none → Outgoing s :=
  run_invariant (I := fun s => s.crashed = none → Outgoing s)
    (fun _ _ _ => Queued.down ⟨nofun, .inl rfl⟩ fun hu => absurd hu.1 nofun)
    (fun _ _ _ hs hcrash hd hf hrun => (hs hcrash).fired hd hf hrun) h

/-- While the connection is up and no write on it has failed, what was written and what waits
    to be written are the lines passed to `send` since `connect_handler`, each once and in
    order; a line that waits has a write ahead of it, and where no write is under way every
    line has been written. -/
theorem lines_in_order (h : Run E (fun s e => delivered s e = true) s) (hrun : s.crashed = none)
    (hconnected : s.isConnected = true) (hopen : s.isOpen = true) (hwrites : s.writeFailed = false) :
    s.written ++ s.sendBuffer ++ render s.txQueue = render s.sent ∧
    (s.txQueue ≠ [] → s.txPending = true) ∧ (s.txPending = true → s.InFlight) ∧
    (¬ s.InFlight → s.written = render s.sent) := by
  have hout := outgoing_of_run h hrun
  have hbalanced := hout.balanced ⟨hconnected, hopen⟩ hwrites
  have hwaiting := hout.waiting ⟨hconnected, hopen⟩ hwrites
  refine ⟨hbalanced, hwaiting, hout.pending, fun hflight => ?_⟩
  have hqueue : s.txQueue = [] := by
    by_contra hne
    exact hflight (hout.pending (hwaiting hne))
  rw [← hbalanced, hout.landed hflight, hqueue]
  simp [render]

/-- The login request is written. -/
theorem login_in_order : ∃ s, Run (tableEnv []) (fun s e => delivered s e = true) s ∧ s.sent = ["request"] ∧
    s.written = render ["request"] := by
  obtain ⟨s, hrun, hsent, hcrash, hconnected, hopen, hwrites, hempty, hqueue⟩ := run_of_trace (tableEnv [])
    (C := delivered) (fun _ => plainUri_fresh ETHPROXY (.inl (by decide))) (connectTrace ++ [.written, .run none])
    (p := fun s => s.sent = ["request"] ∧ s.crashed = none ∧ s.isConnected = true ∧ s.isOpen = true ∧
      s.writeFailed = false ∧ s.writes = [] ∧ s.queue.any Handler.isSendCompletion = false) (by decide +kernel)
  have hflight : ¬ s.InFlight := by
    rintro (hw | ⟨ec, hec⟩)
    · exact hw hempty
    · exact absurd rfl (List.any_eq_false.mp hqueue _ hec)
  refine ⟨s, hrun, hsent, ?_⟩
  rw [(lines_in_order hrun hcrash hconnected hopen hwrites).2.2.2 hflight, hsent]

end CoreMiner.Stratum
