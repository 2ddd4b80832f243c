/-
  CoreMiner.Stratum.Lenient — relations that connecting, disconnecting and sending keep
  (`XcbStratumClient.cpp`: `connect`, `disconnect`, `disconnect_finalize`, `start_connect`,
  `resolve_handler`, `workloop_timer_elapsed`, `onSendSocketDataCompleted`, `submitSolution`,
  `submitHashrate`).

  Most of what the client does is its own business: it changes its members and queues
  handlers, and neither a URI nor the log nor the connection it is bound to changes
  (`Own`). A relation that holds of such changes, of the end of `disconnect_finalize` and of
  a URI that becomes unrecoverable is `Lenient`; it is kept by every function here, so a
  relation between the states of a run is proved about these few changes, once.
-/

import CoreMiner.Stratum.Moves

namespace CoreMiner.Stratum

open DevCore EthCore Lib Prog

variable {E : Env} {s t : St} {a : Nat}

def Handler.isAnswer : Handler → Bool
  | processResponse _ => true
  | _ => false

/-- Only members of the client's own change, and none of its answers to itself is queued, nor
    anything for its owner. A disconnection under way stays so. -/
structure Own (s t : St) : Prop where
  uris : t.uris = s.uris
  log : t.log = s.log
  conn : t.conn = s.conn
  stopping : t.stopping = s.stopping
  disconnecting : s.disconnecting = true → t.disconnecting = true
  ids : t.solutionSubmittedMaxId ≤ s.solutionSubmittedMaxId
  queue : ∃ new, t.queue = s.queue ++ new ∧ ∀ k ∈ new, k.isAnswer = false ∧ k.ofManager = false

theorem Own.of_same (hu : t.uris = s.uris) (hl : t.log = s.log) (hc : t.conn = s.conn) (hq : t.queue = s.queue)
    (hs : t.stopping = s.stopping) (hd : s.disconnecting = true → t.disconnecting = true)
    (hids : t.solutionSubmittedMaxId ≤ s.solutionSubmittedMaxId) : Own s t :=
  ⟨hu, hl, hc, hs, hd, hids, [], by simp [hq]⟩

theorem Own.push (s : St) {k : Handler} (hk : k.isAnswer = false ∧ k.ofManager = false) : Own s (s.push k) :=
  ⟨rfl, rfl, rfl, rfl, id, Nat.le_refl _, [k], rfl, by simpa using hk⟩

theorem Own.trans {u : St} (h : Own s t) (h' : Own t u) : Own s u where
  uris := h'.uris.trans h.uris
  log := h'.log.trans h.log
  conn := h'.conn.trans h.conn
  stopping := h'.stopping.trans h.stopping
  disconnecting := h'.disconnecting ∘ h.disconnecting
  ids := h'.ids.trans h.ids
  queue := by
    obtain ⟨x, hx, hxo⟩ := h.queue
    obtain ⟨y, hy, hyo⟩ := h'.queue
    exact ⟨x ++ y, by rw [hy, hx, List.append_assoc], fun k hk => (List.mem_append.mp hk).elim (hxo k) (hyo k)⟩

theorem Sent.own (h : Sent s t) : Own s t := by
  obtain ⟨_, _, _, _, _, rfl⟩ := h
  exact .of_same rfl rfl rfl rfl rfl id (Nat.le_refl _)

/-- A relation along which programs are followed. -/
structure Along (R : St → St → Prop) : Prop where
  refl : ∀ s, R s s
  trans : ∀ s t u, R s t → R t u → R s u

structure Lenient (R : St → St → Prop) : Prop extends Along R where
  own : ∀ s t, Own s t → R s t
  marked : ∀ s a, R s (s.updateUri a Uri.markUnrecoverable)
  finalized : ∀ s a, s.conn = some a → R s (s.finalized a)
  lost : ∀ s, s.conn = none → R s s.lost

def St.seen (s : St) : (Nat → Uri) × List Out × Option Nat × List Handler × Bool × Bool × Nat :=
  (s.uris, s.log, s.conn, s.queue, s.stopping, s.disconnecting, s.solutionSubmittedMaxId)

def St.intake (s : St) : List Char × Bool × WorkPackage × Option H256 :=
  (s.message, s.newjobprocessed, s.current, s.session.map Session.nextWorkBoundary)

/-- The same of a relation that may speak of the intake: what is the client's own business leaves
    it alone, but for the end of a session. -/
structure Reserved (R : St → St → Prop) : Prop extends Along R where
  own : ∀ s t, Own s t → t.intake = s.intake → R s t
  marked : ∀ s a, R s (s.updateUri a Uri.markUnrecoverable)
  finalized : ∀ s a, s.conn = some a → R s (s.finalized a)
  lost : ∀ s, s.conn = none → R s s.lost

theorem Lenient.reserved {R : St → St → Prop} (h : Lenient R) : Reserved R :=
  { h with own := fun s t ht _ => h.own s t ht }

abbrev Kept (R : St → St → Prop) {α : Type} (m : M α) : Prop := Keeps R (fun _ _ => True) m

section

variable {R : St → St → Prop}

/-! ## Rules -/

theorem Along.bind (h : Along R) {α β : Type} {m : M α} {f : α → M β} (hm : Kept R m) (hf : ∀ x, Kept R (f x)) :
    Kept R (m >>= f) := Keeps.bind h.trans (fun _ _ _ _ _ => trivial) hm hf

theorem Along.get_bind (h : Along R) {α : Type} {f : St → M α} (hf : ∀ s, Kept R (f s)) : Kept R (get >>= f) :=
  h.bind (Keeps.get h.refl) hf

theorem Along.when (h : Along R) {p : Prop} [Decidable p] {m : M Unit} (hm : p → Kept R m) : Kept R (when p m) :=
  Keeps.when h.refl hm

theorem Along.throw (h : Along R) {α : Type} (x : Stop) : Kept R (MonadExcept.throw x : M α) :=
  Keeps.throw h.refl fun _ => trivial

theorem Along.getConn (h : Along R) : Kept R getConn := by
  refine ⟨fun s => wp_getConn.mpr ?_⟩
  cases s.conn with
  | none => exact ⟨h.refl s, trivial⟩
  | some a => exact h.refl s

theorem Reserved.modify (h : Reserved R) {f : St → St} (hf : ∀ s, Own s (f s)) (hi : ∀ s, (f s).intake = s.intake) :
    Kept R (modify f) := Keeps.modify fun s => h.own s _ (hf s) (hi s)

/-- A step that touches neither what others see of the client nor the intake. -/
theorem touch_kept (h : Reserved R) {f : St → St} (hf : ∀ s, (f s).seen = s.seen ∧ (f s).intake = s.intake) :
    Kept R (modify f) := by
  refine h.modify (fun s => ?_) fun s => (hf s).2
  have hseen := (hf s).1
  simp only [St.seen, Prod.mk.injEq] at hseen
  obtain ⟨hu, hl, hc, hq, hs, hd, hids⟩ := hseen
  exact .of_same hu hl hc hq hs (fun h => hd.trans h) hids.le

theorem post_kept (h : Reserved R) {k : Handler} (hk : k.isAnswer = false ∧ k.ofManager = false) : Kept R (post k) :=
  h.modify (fun s => .push s hk) fun _ => rfl

theorem popEndpoint_kept (h : Reserved R) : Kept R popEndpoint := by
  refine ⟨fun s => wp_popEndpoint.mpr ?_⟩
  cases s.endpoints with
  | nil => exact ⟨h.refl s, trivial⟩
  | cons _ rest => exact h.own _ _ (.of_same rfl rfl rfl rfl rfl id (Nat.le_refl _)) rfl

theorem Along.onSession (h : Along R) (hs : ∀ s x, R s { s with session := x }) {α : Type}
    (m : Prog Session Stop α) : Kept R (onSession m) := by
  refine h.get_bind fun s => ?_
  cases s.session with
  | none => exact h.throw _
  | some session =>
    refine ⟨fun t => wp_zoom.mpr (wp_iff_exec.mpr ⟨fun _ _ _ => ?_, fun _ _ _ => ⟨?_, trivial⟩⟩)⟩
    · exact hs t _
    · exact hs t _

/-- A write to the session that leaves the boundary alone. -/
theorem onSession_kept (h : Reserved R) {g : Session → Session}
    (hg : ∀ x, (g x).nextWorkBoundary = x.nextWorkBoundary) : Kept R (onSession (modify g)) := by
  refine ⟨fun s => ?_⟩
  rw [onSession, wp_bind, wp_get]
  cases hs : s.session with
  | none => exact ⟨h.refl s, trivial⟩
  | some x =>
    refine h.own s _ (.of_same rfl rfl rfl rfl rfl id (Nat.le_refl _)) ?_
    simp only [St.intake, hs, Option.map_some, hg]

/-! ## The socket and the timer -/

theorem aborting_own (s : St) : ∀ k ∈ s.aborting, k.isAnswer = false ∧ k.ofManager = false := by
  intro k hk
  simp only [St.aborting, List.mem_append, List.mem_replicate] at hk
  rcases hk with ((⟨-, rfl⟩ | ⟨-, rfl⟩) | ⟨-, rfl⟩) | ⟨-, rfl⟩ <;> exact ⟨rfl, rfl⟩

theorem aborted_own (s : St) : Own s s.aborted := ⟨rfl, rfl, rfl, rfl, id, Nat.le_refl _, _, rfl, aborting_own s⟩

theorem closed_own (s : St) : Own s s.closed := { aborted_own s with }

theorem closeSocket_kept (h : Reserved R) : Kept R closeSocket :=
  ⟨fun s => wp_closeSocket.mpr (h.own s _ (closed_own s) rfl)⟩

theorem cancelSocket_kept (h : Reserved R) : Kept R cancelSocket := by
  refine ⟨fun s => wp_cancelSocket.mpr ?_⟩
  split
  · exact h.own s _ (aborted_own s) rfl
  · exact ⟨h.refl s, trivial⟩

theorem armed_own (s : St) (wait : Wait) : Own s (s.armed wait) := by
  refine ⟨rfl, rfl, rfl, rfl, id, Nat.le_refl _, ?_⟩
  by_cases htimer : s.timer.isSome = true
  · exact ⟨[.workloopTimerElapsed true], if_pos htimer, by simp [Handler.isAnswer, Handler.ofManager]⟩
  · exact ⟨[], by simp [St.armed, htimer], by simp⟩

theorem armTimer_kept (h : Reserved R) (wait : Wait) : Kept R (armTimer wait) :=
  ⟨fun s => wp_armTimer.mpr (h.own s _ (armed_own s wait) rfl)⟩

theorem armWorkloop_kept (h : Reserved R) : Kept R armWorkloop := h.get_bind fun _ => armTimer_kept h _

theorem initSocket_kept (h : Reserved R) : Kept R initSocket :=
  h.bind (h.getConn) fun _ => h.bind (closeSocket_kept h) fun _ => touch_kept h fun _ => ⟨rfl, rfl⟩

/-! ## Disconnecting -/

theorem disconnectFinalize_kept (h : Reserved R) : Kept R disconnectFinalize := by
  refine ⟨fun s => wp_disconnectFinalize.mpr ?_⟩
  split
  case h_1 hc => exact ⟨h.lost s hc, trivial⟩
  case h_2 a hc => exact h.finalized s a hc

theorem shutdownSocket_kept (h : Reserved R) : Kept R shutdownSocket :=
  h.bind h.getConn fun _ => Keeps.ite
    (fun _ => h.bind (touch_kept h fun _ => ⟨rfl, rfl⟩) fun _ =>
      touch_kept h fun _ => ⟨rfl, rfl⟩)
    fun _ => h.bind (closeSocket_kept h) fun _ => disconnectFinalize_kept h

theorem disconnect_kept (h : Reserved R) : Kept R disconnect := by
  refine h.get_bind fun s => h.when fun _ => h.bind (h.modify (fun _ => ?_) fun _ => rfl) fun _ => ?_
  · exact .of_same rfl rfl rfl rfl rfl (fun _ => rfl) (Nat.le_refl _)
  · exact Keeps.ite (fun _ => h.bind (cancelSocket_kept h) fun _ => shutdownSocket_kept h) fun _ =>
      disconnectFinalize_kept h

theorem onSSLShutdownCompleted_kept (h : Reserved R) : Kept R onSSLShutdownCompleted :=
  h.bind (touch_kept h fun _ => ⟨rfl, rfl⟩) fun _ => post_kept h ⟨rfl, rfl⟩

/-! ## Connecting -/

theorem resolving_own (s : St) (u : Uri) : Own s (s.resolving u) := by
  unfold St.resolving
  split
  · refine ⟨rfl, rfl, rfl, rfl, id, Nat.le_refl _, _, rfl, fun k hk => ?_⟩
    rw [List.eq_of_mem_replicate hk]
    exact ⟨rfl, rfl⟩
  · exact ⟨rfl, rfl, rfl, rfl, id, Nat.le_refl _, [.startConnect], rfl, by simp [Handler.isAnswer, Handler.ofManager]⟩

theorem resolving_intake (s : St) (u : Uri) : (s.resolving u).intake = s.intake := by
  unfold St.resolving
  split <;> rfl

theorem resolve_kept (h : Reserved R) (u : Uri) : Kept R (resolve u) :=
  ⟨fun s => wp_resolve.mpr (h.own s _ (resolving_own s u) (resolving_intake s u))⟩

theorem dialing_own (s : St) (a : Nat) : Own s (s.dialing a) := by
  have htuned : Own s s.tuned := { armed_own s (.until (s.now + workloopInterval)) with }
  unfold St.dialing
  split
  · exact { htuned with }
  · exact { htuned.trans (closed_own _) with }

theorem connect_kept (h : Reserved R) : Kept R connect :=
  h.get_bind fun _ => h.when fun _ => h.bind (armWorkloop_kept h) fun _ =>
    h.bind (touch_kept h fun _ => ⟨rfl, rfl⟩) fun _ =>
    h.bind (h.when fun _ => initSocket_kept h) fun _ =>
    h.bind (touch_kept h fun _ => ⟨rfl, rfl⟩) fun _ => h.bind (h.getConn) fun u => resolve_kept h u

theorem giveUpConnecting_kept (h : Reserved R) : Kept R giveUpConnecting :=
  h.bind (h.getConn) fun _ => h.bind (touch_kept h fun _ => ⟨rfl, rfl⟩) fun _ => disconnectFinalize_kept h

theorem resolveHandler_kept (h : Reserved R) (endpoints : Option (List Nat)) : Kept R (resolveHandler endpoints) := by
  cases endpoints with
  | none => exact giveUpConnecting_kept h
  | some l => exact h.bind (touch_kept h fun _ => ⟨rfl, rfl⟩) fun _ => post_kept h ⟨rfl, rfl⟩

theorem asyncConnect_kept (h : Reserved R) : Kept R asyncConnect :=
  h.get_bind fun _ => h.bind (h.when fun _ => initSocket_kept h) fun _ =>
    h.bind (touch_kept h fun _ => ⟨rfl, rfl⟩) fun _ =>
    h.bind (touch_kept h fun _ => ⟨rfl, rfl⟩) fun _ =>
    h.bind (h.modify (fun _ => .of_same rfl rfl rfl rfl rfl id (Nat.zero_le _)) fun _ => rfl) fun _ =>
    h.bind (h.getConn) fun _ => touch_kept h fun _ => ⟨rfl, rfl⟩

theorem startConnect_kept (h : Reserved R) : Kept R startConnect :=
  h.get_bind fun _ => h.when fun _ => h.bind (touch_kept h fun _ => ⟨rfl, rfl⟩) fun _ =>
    Keeps.ite (fun _ => giveUpConnecting_kept h) fun _ => asyncConnect_kept h

theorem connectFailed_kept (h : Reserved R) : Kept R connectFailed :=
  h.get_bind fun _ => h.bind (h.when fun _ => closeSocket_kept h) fun _ =>
    h.bind (popEndpoint_kept h) fun _ => post_kept h ⟨rfl, rfl⟩

/-- All of `connect_handler` but the part that follows an established connection. -/
theorem connectHandler_kept (h : Reserved R) {ec handshakeFails : Bool}
    (hestablished : Kept R (connectEstablished E handshakeFails)) : Kept R (connectHandler E ec handshakeFails) :=
  h.bind (touch_kept h fun _ => ⟨rfl, rfl⟩) fun _ => h.get_bind fun _ =>
    h.bind (h.when fun _ => h.throw _) fun _ =>
    Keeps.ite (fun _ => connectFailed_kept h) fun _ => hestablished

theorem reconnectTimerElapsed_kept (h : Reserved R) : Kept R reconnectTimerElapsed :=
  h.get_bind fun _ => h.when fun _ => connect_kept h

/-! ## Sending, and reading an error -/

theorem Sent.intake (h : Sent s t) : t.intake = s.intake := by
  obtain ⟨_, _, _, _, _, rfl⟩ := h
  rfl

theorem Sent.kept (h : Reserved R) {α : Type} {m : M α} {B : Stop → St → Prop} (hm : Keeps Sent B m) : Kept R m :=
  ⟨fun s => wp_mono (hm.from_ s) (fun _ t ht => h.own s t ht.own ht.intake) fun _ t ht =>
    ⟨h.own s t ht.1.own ht.1.intake, trivial⟩⟩

/-- A tick sends, closes or times out, or answers in the pool's place. -/
theorem Along.tick (h : Along R) (hown : ∀ s t, Own s t → t.intake = s.intake → R s t)
    (hanswer : ∀ s, R s s.answering) (aborted : Bool) : Kept R (workloopTimerElapsed E aborted) := by
  refine ⟨fun s => ?_⟩
  cases aborted with
  | true => exact wp_workloopTimerElapsed_true.mpr (h.refl s)
  | false =>
    cases hc : s.conn with
    | none => exact (wp_workloopTimerElapsed_none hc).mpr (h.refl s)
    | some a =>
      have hsent {t : St} (ht : Sent s t) : R s t := hown s t ht.own ht.intake
      refine wp_workloopTimerElapsed_of hc (fun t ht _ => ?_) (fun t ht _ => ?_) fun _ t ht => ⟨hsent ht, trivial⟩
      · exact h.trans _ _ _ (hsent ht) (hown _ _ (closed_own t) rfl)
      · obtain ⟨u, hu, hchecked⟩ := ht
        have hu' : R u t := by
          cases hchecked with
          | on => exact h.refl _
          | timedOut rest => exact hown _ _ { Own.push u (k := .disconnect) ⟨rfl, rfl⟩ with } rfl
          | answer _ => exact hanswer u
        exact h.trans _ _ _ (h.trans _ _ _ (hsent hu) hu') (hown _ _ (armed_own t _) rfl)

/-- A relation that a new client keeps as well. -/
theorem rotateConnect_kept (h : Reserved R) (hrebound : ∀ s a, R s (s.rebound a)) (choice : Option (Nat × Bool)) :
    Kept R (rotateConnect choice) := by
  refine ⟨fun s => wp_rotateConnect.mpr ?_⟩
  split
  · exact h.refl s
  · split
    · exact h.refl s
    · rename_i a delayed
      split
      · exact h.trans _ _ _ (hrebound s a) (h.own _ _ (.of_same rfl rfl rfl rfl rfl id (Nat.le_refl _)) rfl)
      · exact wp_mono ((connect_kept h).from_ _) (fun _ t ht => h.trans _ _ _ (hrebound s a) ht)
          fun _ t ht => ⟨h.trans _ _ _ (hrebound s a) ht.1, trivial⟩

theorem onSendSocketDataCompleted_kept (h : Reserved R) (ec : Option WriteError) :
    Kept R (onSendSocketDataCompleted ec) := by
  cases ec with
  | none =>
    refine h.bind (h.get_bind fun _ => h.when fun _ => h.bind (h.getConn) fun _ => h.when fun _ =>
      onSession_kept h fun _ => rfl) fun _ => h.get_bind fun _ => Keeps.ite (fun _ => ?_) fun _ => ?_
    · exact touch_kept h fun _ => ⟨rfl, rfl⟩
    · exact Sent.kept h sendSocketData_sent
  | some ec =>
    exact h.bind (touch_kept h fun _ => ⟨rfl, rfl⟩) fun _ => h.bind (h.when fun _ => post_kept h ⟨rfl, rfl⟩) fun _ =>
      h.get_bind fun _ => h.when fun _ => post_kept h ⟨rfl, rfl⟩

theorem readFailed_kept (h : Reserved R) : Kept R (onRecvSocketDataCompleted E none) := by
  refine h.get_bind fun s => h.when fun _ => h.bind (h.when fun _ => ⟨fun t => ?_⟩) fun _ => post_kept h ⟨rfl, rfl⟩
  rw [wp_modifyConn]
  cases t.conn with
  | none => exact ⟨h.refl t, trivial⟩
  | some a => exact h.marked t a

/-- The ids grow with a submission only. -/
theorem submitSolution_kept (h : Reserved R) (solution : Solution)
    (hids : ∀ s : St, R s { s with solutionSubmittedMaxId := max s.solutionSubmittedMaxId (40 + solution.midx) }) :
    Kept R (submitSolution E solution) := by
  refine h.get_bind fun s => ?_
  cases s.session with
  | none => exact Keeps.pure h.refl _
  | some session =>
    refine h.when fun _ => h.bind (Keeps.modify hids) fun _ => h.bind (h.getConn) fun _ => ?_
    refine h.bind ?_ fun _ => h.bind (touch_kept h fun _ => ⟨rfl, rfl⟩) fun _ => Sent.kept h (send_sent _)
    cases submitRequest _ _ solution with
    | error x => exact h.throw _
    | ok jReq => exact Keeps.pure h.refl _

theorem submitHashrate_kept (h : Reserved R) (rate : UInt64) (id : String) : Kept R (submitHashrate E rate id) := by
  refine h.get_bind fun s => h.when fun _ => h.bind (h.getConn) fun u =>
    Keeps.ite (fun _ => ?_) fun _ => Sent.kept h (send_sent _)
  cases s.session with
  | none => exact h.throw _
  | some session => exact Sent.kept h (send_sent _)

end

end CoreMiner.Stratum
