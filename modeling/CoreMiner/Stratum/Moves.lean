/-
  CoreMiner.Stratum.Moves — what connecting and disconnecting do to the state
  (`XcbStratumClient.cpp`: `disconnect`, `disconnect_finalize`, `connect`, `start_connect`,
  `resolve_handler`, `connect_handler`, `workloop_timer_elapsed`).

  Each handler is given by the states it can end in: `finalized`, `parted`, `connecting` and
  so on are those states, and a `wp_` lemma says which of them a handler reaches. The
  invariants of the runs are proved about these states and never unfold a handler.
-/

import CoreMiner.Stratum.System
import CoreMiner.Stratum.Transmission

namespace CoreMiner.Stratum

open DevCore EthCore Lib Prog

variable {E : Env} {s : St} {a : Nat} {Q : Unit → St → Prop} {X : Stop → St → Prop}

theorem wp_modifyConn_some {f : Uri → Uri} (hc : s.conn = some a) :
    wp (modifyConn f) Q X s ↔ Q () (s.updateUri a f) := by
  rw [wp_modifyConn, hc]

/-! ## The socket and the timer -/

def St.aborting (s : St) : List Handler :=
  List.replicate s.reads (.onRecvSocketDataCompleted none) ++
    List.replicate s.writes.length (.onSendSocketDataCompleted (some .other)) ++
    List.replicate s.connects (.connectHandler true false) ++
    List.replicate s.shutdowns .onSSLShutdownCompleted

def St.aborted (s : St) : St := { s with
  queue := s.queue ++ s.aborting
  reads := 0
  writes := []
  connects := 0
  shutdowns := 0 }

def St.closed (s : St) : St := { s.aborted with isOpen := false }

@[simp] theorem wp_abortOperations : wp abortOperations Q X s ↔ Q () s.aborted := by
  simp [abortOperations, St.aborted, St.aborting]

@[simp] theorem wp_closeSocket : wp closeSocket Q X s ↔ Q () s.closed := by
  simp [closeSocket, St.closed, St.aborted, St.aborting]

theorem wp_cancelSocket :
    wp cancelSocket Q X s ↔ if s.isOpen then Q () s.aborted else X (.exception .systemError) s := by
  simp only [cancelSocket, wp_bind, wp_get, wp_ite, wp_abortOperations, wp_throw]

def St.armed (s : St) (wait : Wait) : St := { s with
  queue := if s.timer.isSome then s.queue ++ [.workloopTimerElapsed true] else s.queue
  timer := some wait }

@[simp] theorem wp_armTimer {wait : Wait} : wp (armTimer wait) Q X s ↔ Q () (s.armed wait) := by
  simp [armTimer, St.armed]

def St.ticking (s : St) : St := s.armed (.until (s.now + workloopInterval))

@[simp] theorem wp_armWorkloop : wp armWorkloop Q X s ↔ Q () s.ticking := by
  simp [armWorkloop, St.ticking]

def St.fresh (s : St) (a : Nat) : St :=
  { s.closed with socket := true, securesocket := s.securesocket || (s.uris a).secure }

theorem wp_initSocket (hc : s.conn = some a) : wp initSocket Q X s ↔ Q () (s.fresh a) := by
  simp only [initSocket, wp_bind, wp_getConn, hc, wp_closeSocket, wp_modify]
  rfl

/-! ## Disconnecting -/

def St.reported (s : St) : St := { s with
  pleas := Pleas.clear s.now
  solutionSubmittedMaxId := 0
  timer := some .forever
  log := .onDisconnected :: s.log
  conn := none
  queue := (s.armed .forever).queue ++ if s.stopping then [] else [.rotateConnect] }

@[simp] theorem wp_reportDisconnect : wp reportDisconnect Q X s ↔ Q () s.reported := by
  simp only [reportDisconnect, clearResponsePleas, emit, wp_bind, wp_modify, wp_armTimer]
  have hsame : (if s.stopping then (s.armed .forever).queue else (s.armed .forever).queue ++ [.rotateConnect]) =
      (s.armed .forever).queue ++ if s.stopping then [] else [.rotateConnect] := by
    cases s.stopping <;> simp
  rw [St.reported, ← hsame]
  rfl

def St.uriReleased (s : St) (u : Uri) : Uri :=
  match s.session with
  | none => u
  | some session => { u with totalDuration := u.totalDuration + (s.now - session.start) / 60000000000 }

def St.sessionReleased (s : St) (a : Nat) : St := { s.updateUri a s.uriReleased with session := none }

theorem sessionReleased_of_none (hs : s.session = none) (a : Nat) : s.sessionReleased a = s := by
  have hsame : (fun b => if b = a then s.uriReleased (s.uris a) else s.uris b) = s.uris := by
    funext b
    by_cases hb : b = a
    · simp [hb, St.uriReleased, hs]
    · simp [hb]
  rw [St.sessionReleased, St.updateUri, hsame, ← hs]

theorem wp_releaseSession_none (hc : s.conn = none) :
    wp releaseSession Q X s ↔ if s.session.isSome then X .nullConn s else Q () s := by
  rw [releaseSession, wp_bind, wp_get]
  cases s.session with
  | none => exact Iff.rfl
  | some session => simp [hc]

theorem wp_releaseSession_some (hc : s.conn = some a) : wp releaseSession Q X s ↔ Q () (s.sessionReleased a) := by
  rw [releaseSession, wp_bind, wp_get]
  cases hs : s.session with
  | none =>
    rw [sessionReleased_of_none hs]
    exact Iff.rfl
  | some session =>
    have huri : s.uriReleased = fun u : Uri =>
        { u with totalDuration := u.totalDuration + (s.now - session.start) / 60000000000 } := by
      funext u
      rw [St.uriReleased, hs]
    simp only [wp_bind, wp_modifyConn, hc, wp_modify, St.sessionReleased, huri]

def St.finalizing (s : St) : St := { s.closed with log := .finalizing s.conn :: s.log, socket := false }

def St.released (s : St) (a : Nat) : St :=
  { s.finalizing.sessionReleased a with authpending := false, disconnecting := false, txPending := false }

def St.lost (s : St) : St := { s.finalizing with
  authpending := s.session.isSome && s.authpending
  disconnecting := s.session.isSome && s.disconnecting
  txPending := s.session.isSome && s.txPending }

def St.lowered (s : St) (a : Nat) : St := { s.updateUri a fun u => { u with stratumMode := u.stratumMode - 1 } with
  queue := s.queue ++ [.startConnect]
  log := .reposted (some a) :: s.log }

def St.finalized (s : St) (a : Nat) : St :=
  if retriesNextMode (s.uris a) then
    if 0 < (s.uris a).stratumMode then (s.released a).lowered a
    else ((s.released a).updateUri a Uri.markUnrecoverable).reported
  else (s.released a).reported

theorem retriesNextMode_released (s : St) (a : Nat) :
    retriesNextMode ((s.released a).uris a) = retriesNextMode (s.uris a) ∧
      ((s.released a).uris a).stratumMode = (s.uris a).stratumMode := by
  have huri : (s.released a).uris a = s.uriReleased (s.uris a) := if_pos rfl
  rw [huri, St.uriReleased]
  cases s.session <;> exact ⟨rfl, rfl⟩

theorem wp_tryNextMode {u : Uri} (hc : s.conn = some a) :
    wp (tryNextMode u) Q X s ↔
      if 0 < u.stratumMode then Q () (s.lowered a) else Q () (s.updateUri a Uri.markUnrecoverable).reported := by
  rw [tryNextMode, wp_ite]
  simp only [post, emit, wp_bind, wp_modifyConn, hc, wp_modify, wp_get, wp_reportDisconnect]
  have hconn : (s.updateUri a fun u => { u with stratumMode := u.stratumMode - 1 }).conn = some a := hc
  rw [hconn]
  exact Iff.rfl

theorem wp_disconnectFinalize : wp disconnectFinalize Q X s ↔ match s.conn with
    | none => X .nullConn s.lost
    | some a => Q () (s.finalized a) := by
  have hfinalizing : wp disconnectFinalize Q X s ↔ wp (do
      releaseSession
      modify fun s => { s with authpending := false, disconnecting := false, txPending := false }
      let u ← getConn
      if retriesNextMode u then tryNextMode u else reportDisconnect) Q X s.finalizing := by
    rw [disconnectFinalize, wp_bind, wp_get, wp_bind, emit, wp_modify, wp_bind, wp_closeSocket, wp_bind, wp_modify]
    exact Iff.rfl
  rw [hfinalizing, wp_bind]
  cases hc : s.conn with
  | none =>
    have hconn : s.finalizing.conn = none := hc
    have hsession : s.finalizing.session = s.session := rfl
    rw [wp_releaseSession_none hconn, hsession]
    cases hs : s.session with
    | none => simp [St.lost, hs, hconn]
    | some session =>
      have hlost : s.finalizing = s.lost := by simp [St.lost, hs, St.finalizing, St.closed, St.aborted]
      simp [hlost]
  | some a =>
    have hconn : (s.released a).conn = some a := hc
    rw [wp_releaseSession_some (s := s.finalizing) hc, wp_bind, wp_modify]
    show wp (do let u ← getConn; if retriesNextMode u then tryNextMode u else reportDisconnect) Q X (s.released a) ↔
      Q () (s.finalized a)
    rw [wp_bind, wp_getConn, hconn]
    simp only [wp_ite, wp_tryNextMode hconn, wp_reportDisconnect, retriesNextMode_released, St.finalized]
    split_ifs <;> rfl

def St.shuttingDown (s : St) : St := { s with shutdowns := s.shutdowns + 1, pleas := s.pleas.enqueue s.now }

theorem wp_shutdownSocket : wp shutdownSocket Q X s ↔ match s.conn with
    | none => X .nullConn s
    | some a => if (s.uris a).secure then Q () s.shuttingDown else Q () (s.closed.finalized a) := by
  rw [shutdownSocket, wp_bind, wp_getConn]
  cases hc : s.conn with
  | none => rfl
  | some a =>
    have hconn : s.closed.conn = some a := hc
    simp only [wp_ite, wp_bind, enqueueResponsePlea, wp_modify, wp_closeSocket, wp_disconnectFinalize, hconn]
    exact Iff.rfl

def St.parting (s : St) : St := { s with disconnecting := true, connected := false }

theorem wp_disconnect : wp disconnect Q X s ↔
    if s.disconnecting then Q () s
    else if s.socket then
      if s.isOpen then wp shutdownSocket Q X s.parting.aborted else X (.exception .systemError) s.parting
    else wp disconnectFinalize Q X s.parting := by
  simp only [disconnect, wp_bind, wp_get, wp_when, wp_modify, wp_ite, wp_cancelSocket]
  cases s.disconnecting <;> exact Iff.rfl

theorem wp_onSSLShutdownCompleted : wp onSSLShutdownCompleted Q X s ↔
    Q () { s with pleas := Pleas.clear s.now, queue := s.queue ++ [.disconnectFinalize] } := by
  simp only [onSSLShutdownCompleted, clearResponsePleas, post, wp_bind, wp_modify]

/-! ## Connecting -/

def St.tuned (s : St) : St := { s.ticking with authpending := false }

def St.unresolved (s : St) : St := { s with endpoints := [] }

def St.resolving (s : St) (u : Uri) : St :=
  if u.hostNameType = .dns ∨ u.hostNameType = .basic then
    { s with queue := s.queue ++ List.replicate s.resolves (.resolveHandler none), resolves := 1 }
  else { s with endpoints := [0], queue := s.queue ++ [.startConnect] }

theorem wp_resolve {u : Uri} : wp (resolve u) Q X s ↔ Q () (s.resolving u) := by
  simp only [resolve, post, wp_ite, wp_bind, wp_modify, St.resolving]
  split_ifs <;> rfl

theorem wp_resolveConn : wp (do
      modify St.unresolved
      let u ← getConn
      resolve u) Q X s ↔ match s.conn with
    | none => X .nullConn s.unresolved
    | some a => Q () (s.unresolved.resolving (s.uris a)) := by
  rw [wp_bind, wp_modify, wp_bind, wp_getConn]
  simp only [wp_resolve]
  exact Iff.rfl

/-- `connect` up to the resolution: the timer runs, there is a socket and no endpoint. -/
def St.dialing (s : St) (a : Nat) : St := (if s.socket then s.tuned else s.tuned.fresh a).unresolved

theorem dialing_log (s : St) (a : Nat) : (s.dialing a).log = s.log := by
  rw [St.dialing]
  split <;> simp only [St.unresolved, St.tuned, St.ticking, St.armed, St.fresh, St.closed, St.aborted]

theorem wp_connect : wp connect Q X s ↔
    if s.connecting then Q () s
    else match s.conn with
      | none => X .nullConn (if s.socket then s.tuned.unresolved else s.tuned)
      | some a => Q () ((s.dialing a).resolving (s.uris a)) := by
  have htuned : wp connect Q X s ↔ if s.connecting then Q () s else wp (do
      when (!s.socket) initSocket
      modify St.unresolved
      let u ← getConn
      resolve u) Q X s.tuned := by
    rw [connect, wp_bind, wp_get, wp_when]
    cases s.connecting <;> exact Iff.rfl
  rw [htuned, wp_bind, wp_when]
  have hconn : s.tuned.conn = s.conn := rfl
  by_cases hsocket : s.socket = true
  · simp only [hsocket, St.dialing, wp_resolveConn, hconn]
    exact Iff.rfl
  · cases hc : s.conn with
    | none => simp [hsocket, initSocket, hconn, hc]
    | some a =>
      have hfresh : (s.tuned.fresh a).conn = some a := hc
      simp only [hsocket, wp_initSocket (s := s.tuned) hc, wp_resolveConn, hfresh, St.dialing]
      exact Iff.rfl

theorem wp_giveUpConnecting : wp giveUpConnecting Q X s ↔ match s.conn with
    | none => X .nullConn s
    | some a => Q () ({ s with connecting := false }.finalized a) := by
  rw [giveUpConnecting, wp_bind, wp_getConn]
  cases hc : s.conn with
  | none => rfl
  | some a => simp only [wp_bind, wp_modify, wp_disconnectFinalize, hc]

theorem wp_resolveHandler {endpoints : Option (List Nat)} : wp (resolveHandler endpoints) Q X s ↔
    match endpoints with
    | some l => Q () { s with endpoints := s.endpoints ++ l, queue := s.queue ++ [.startConnect] }
    | none => wp giveUpConnecting Q X s := by
  cases endpoints with
  | none => rfl
  | some l => simp only [resolveHandler, post, wp_bind, wp_modify]

def St.pleading (s : St) : St :=
  { s with pleas := (Pleas.clear s.now).enqueue s.now, solutionSubmittedMaxId := 0 }

def St.dequeued (s : St) : St := { s with pleas := (s.pleas.dequeue s.now).2 }

def St.opening (s : St) (a : Nat) : St :=
  let t := (if s.socket then s else s.fresh a).pleading
  { t with isOpen := true, connects := t.connects + 1 }

theorem opening_log (s : St) (a : Nat) : (s.opening a).log = s.log := by
  rw [St.opening]
  split <;> simp only [St.pleading, St.fresh, St.closed, St.aborted]

theorem wp_asyncConnect : wp asyncConnect Q X s ↔ match s.conn with
    | none => X .nullConn (if s.socket then s.pleading else s)
    | some a => Q () (s.opening a) := by
  have hpleading : ∀ t : St, wp (do
      clearResponsePleas
      enqueueResponsePlea
      modify fun s => { s with solutionSubmittedMaxId := 0 }
      let _ ← getConn
      modify fun s => { s with isOpen := true, connects := s.connects + 1 }) Q X t ↔ match t.conn with
        | none => X .nullConn t.pleading
        | some _ => Q () { t.pleading with isOpen := true, connects := t.pleading.connects + 1 } := by
    intro t
    rw [wp_bind, clearResponsePleas, wp_modify, wp_bind, enqueueResponsePlea, wp_modify, wp_bind, wp_modify, wp_bind,
      wp_getConn]
    exact Iff.rfl
  rw [asyncConnect, wp_bind, wp_get, wp_bind, wp_when]
  by_cases hsocket : s.socket = true
  · simp only [hsocket, hpleading, St.opening]
    exact Iff.rfl
  · cases hc : s.conn with
    | none => simp [hsocket, initSocket, hc]
    | some a =>
      have hfresh : (s.fresh a).conn = some a := hc
      simp only [hsocket, wp_initSocket hc, hpleading, hfresh, St.opening]
      exact Iff.rfl

theorem wp_startConnect : wp startConnect Q X s ↔
    if s.connecting then Q () s
    else if s.endpoints.isEmpty then wp giveUpConnecting Q X { s with connecting := true }
    else wp asyncConnect Q X { s with connecting := true } := by
  simp only [startConnect, wp_bind, wp_get, wp_when, wp_modify, wp_ite]
  cases s.connecting <;> exact Iff.rfl

theorem wp_popEndpoint : wp popEndpoint Q X s ↔ match s.endpoints with
    | [] => X .emptyEndpoints s
    | _ :: rest => Q () { s with endpoints := rest } := by
  rw [popEndpoint, wp_bind, wp_get]
  cases s.endpoints <;> exact Iff.rfl

def St.refused (s : St) : St := if s.isOpen then s.closed else s

theorem wp_connectFailed : wp connectFailed Q X s ↔ match s.endpoints with
    | [] => X .emptyEndpoints s.refused
    | _ :: rest => Q () { s.refused with endpoints := rest, queue := s.refused.queue ++ [.startConnect] } := by
  have hendpoints : s.refused.endpoints = s.endpoints := by
    rw [St.refused]
    split <;> rfl
  have hclose : wp connectFailed Q X s ↔ wp (do popEndpoint; post .startConnect) Q X s.refused := by
    simp only [connectFailed, wp_bind, wp_get, wp_when, wp_closeSocket, St.refused]
    split <;> rfl
  rw [hclose, wp_bind, wp_popEndpoint, hendpoints]
  cases s.endpoints <;> exact Iff.rfl

theorem wp_connectHandler {ec handshakeFails : Bool} : wp (connectHandler E ec handshakeFails) Q X s ↔
    if s.socket then
      if ec || !s.isOpen then wp connectFailed Q X { s with connecting := false }
      else wp (connectEstablished E handshakeFails) Q X { s with connecting := false }
    else X .nullSocket { s with connecting := false } := by
  simp only [connectHandler, wp_bind, wp_modify, wp_get, wp_when, wp_ite, wp_throw]
  cases s.socket <;> exact Iff.rfl

def St.established (s : St) (a : Nat) : St :=
  { s.updateUri a (fun u => { u with responds := true }) with
    connected := true, message := [], txQueue := [], sent := [], written := [], writeFailed := false }

def St.abandoned (s : St) (a : Nat) : St :=
  { s.updateUri a Uri.markUnrecoverable with queue := s.queue ++ [.disconnect] }

def St.loggingIn (s : St) (a : Nat) : St :=
  { s.updateUri a chooseMode with sendBuffer := s.sendBuffer.drop 4096, pleas := Pleas.clear s.now }

def St.greeting (s : St) (a : Nat) : St :=
  { s.loggingIn a with reads := s.reads + 1, pleas := (Pleas.clear s.now).enqueue s.now }

theorem wp_login (hc : s.conn = some a) : wp (login E) Q X s ↔
    if s.hasStream (s.uris a) then wp (send E (loginRequest E (chooseMode (s.uris a)))) Q X (s.greeting a)
    else X .nullSocket (s.loggingIn a) := by
  have hconn : (s.loggingIn a).conn = some a := hc
  have huri : (s.loggingIn a).uris a = chooseMode (s.uris a) := if_pos rfl
  have hstream : (s.loggingIn a).hasStream (chooseMode (s.uris a)) = s.hasStream (s.uris a) := by
    have hsecure : (chooseMode (s.uris a)).secure = (s.uris a).secure := by
      unfold chooseMode
      split_ifs <;> rfl
    rw [St.hasStream, hsecure]
    rfl
  have hchosen : wp (login E) Q X s ↔ wp (do
      let u ← getConn
      recvSocketData
      enqueueResponsePlea
      send E (loginRequest E u)) Q X (s.loggingIn a) := by
    rw [login, wp_bind, wp_modify, wp_bind, clearResponsePleas, wp_modify, wp_bind]
    exact wp_modifyConn_some (s := { s with sendBuffer := s.sendBuffer.drop 4096, pleas := Pleas.clear s.now }) hc
  rw [hchosen, wp_bind, wp_getConn, hconn]
  show wp (do recvSocketData; enqueueResponsePlea; send E (loginRequest E ((s.loggingIn a).uris a))) Q X
    (s.loggingIn a) ↔ _
  rw [huri, recvSocketData, bind_assoc, wp_bind, wp_stream, hconn]
  show (if (s.loggingIn a).hasStream ((s.loggingIn a).uris a) = false then X .nullSocket (s.loggingIn a)
    else wp (send E (loginRequest E (chooseMode (s.uris a)))) Q X (s.greeting a)) ↔ _
  rw [huri, hstream]
  cases s.hasStream (s.uris a) <;> simp

theorem wp_abandon : wp abandon Q X s ↔ match s.conn with
    | none => X .nullConn s
    | some a => Q () (s.abandoned a) := by
  rw [abandon, wp_bind, wp_modifyConn]
  cases s.conn <;> exact Iff.rfl

theorem wp_connectEstablished {handshakeFails : Bool} : wp (connectEstablished E handshakeFails) Q X s ↔
    match s.conn with
    | none => X .nullConn s
    | some a =>
      if (s.uris a).secure && handshakeFails then Q () ((s.established a).abandoned a)
      else wp (login E) Q X (s.established a) := by
  rw [connectEstablished, wp_bind, wp_modifyConn]
  cases hc : s.conn with
  | none => exact Iff.rfl
  | some a =>
    have hconn : (s.established a).conn = some a := hc
    have hsecure : ((s.established a).uris a).secure = (s.uris a).secure := by
      rw [show (s.established a).uris a = { s.uris a with responds := true } from if_pos rfl]
      rfl
    show wp (do let u ← getConn; if u.secure && handshakeFails then abandon else login E) Q X (s.established a) ↔ _
    rw [wp_bind, wp_getConn, hconn]
    simp only [wp_ite, hsecure, wp_abandon, hconn]

/-! ## Sending -/

def Sent (s t : St) : Prop :=
  ∃ txQueue sendBuffer txPending writes sent, t = { s with txQueue, sendBuffer, txPending, writes, sent }

theorem Sent.refl (s : St) : Sent s s := ⟨_, _, _, _, _, rfl⟩

theorem Sent.trans (s t u : St) (h : Sent s t) (h' : Sent t u) : Sent s u := by
  obtain ⟨_, _, _, _, _, rfl⟩ := h
  obtain ⟨_, _, _, _, _, rfl⟩ := h'
  exact ⟨_, _, _, _, _, rfl⟩

def St.flushed (s : St) : St := { s with
  sendBuffer := s.sendBuffer ++ s.txQueue.flatMap fun line => line.toList ++ ['\n']
  txQueue := [] }

def St.unsent (s : St) : St := { s with sendBuffer := [], txQueue := [], txPending := false }

def St.writing (s : St) : St := { s.flushed with writes := s.writes ++ [s.flushed.sendBuffer.length] }

theorem wp_sendSocketData : wp sendSocketData Q X s ↔
    if !s.isConnected || s.txQueue.isEmpty then Q () s.unsent
    else match s.conn with
      | none => X .nullConn s.flushed
      | some a => if s.hasStream (s.uris a) then Q () s.writing else X .nullSocket s.flushed := by
  rw [sendSocketData, wp_bind, wp_get, wp_ite]
  have hflush : wp (do
      modify fun s => { s with
        sendBuffer := s.sendBuffer ++ s.txQueue.flatMap fun line => line.toList ++ ['\n']
        txQueue := [] }
      stream
      modify fun s => { s with writes := s.writes ++ [s.sendBuffer.length] }) Q X s ↔ match s.conn with
        | none => X .nullConn s.flushed
        | some a => if s.hasStream (s.uris a) then Q () s.writing else X .nullSocket s.flushed := by
    rw [wp_bind, wp_modify, wp_bind]
    refine (wp_stream (s := s.flushed)).trans ?_
    show (match s.conn with | none => _ | some a => _) ↔ _
    cases s.conn with
    | none => exact Iff.rfl
    | some a =>
      show (if s.hasStream (s.uris a) = false then X .nullSocket s.flushed else Q () s.writing) ↔
        if s.hasStream (s.uris a) = true then Q () s.writing else X .nullSocket s.flushed
      cases s.hasStream (s.uris a) <;> rfl
  rw [hflush]
  exact Iff.rfl

def St.queued (s : St) (line : String) : St := { s with txQueue := s.txQueue ++ [line], sent := s.sent ++ [line] }

theorem wp_send {jReq : Json} : wp (send E jReq) Q X s ↔
    if s.txPending then Q () (s.queued (E.writeString jReq))
    else wp sendSocketData Q X { s.queued (E.writeString jReq) with txPending := true } := by
  rw [send, wp_bind, wp_modify, wp_bind, wp_get, wp_when]
  show (if (!s.txPending) = true then wp sendSocketData Q X { s.queued (E.writeString jReq) with txPending := true }
    else Q () (s.queued (E.writeString jReq))) ↔ _
  by_cases hp : s.txPending = true
  · rw [if_neg (by simp [hp]), if_pos hp]
  · rw [if_pos (by simp [hp]), if_neg hp]

theorem sendSocketData_sent : Keeps Sent (fun x _ => x.isStd = false) sendSocketData := by
  refine ⟨fun s => ?_⟩
  rw [wp_sendSocketData]
  split
  · exact ⟨_, _, _, _, _, rfl⟩
  · cases s.conn with
    | none => exact ⟨⟨_, _, _, _, _, rfl⟩, rfl⟩
    | some a =>
      show if _ then _ else _
      split
      · exact ⟨_, _, _, _, _, rfl⟩
      · exact ⟨⟨_, _, _, _, _, rfl⟩, rfl⟩

/-- A null pointer is all that can stop it. -/
theorem send_sent (jReq : Json) : Keeps Sent (fun x _ => x.isStd = false) (send E jReq) := by
  refine ⟨fun s => ?_⟩
  rw [wp_send]
  split
  · exact ⟨_, _, _, _, _, rfl⟩
  · have hqueued : Sent s { s.queued (E.writeString jReq) with txPending := true } := ⟨_, _, _, _, _, rfl⟩
    exact wp_mono (sendSocketData_sent.from_ _) (fun _ t h => hqueued.trans _ _ _ h)
      fun _ t h => ⟨hqueued.trans _ _ _ h.1, h.2⟩

/-! ## The first reply -/

theorem wp_loginReply {h : Header} {result : Json} : wp (loginReply E h result) Q X s ↔ match s.conn with
    | none => X .nullConn s.dequeued
    | some a =>
      if !h.isSuccess && !(s.uris a).stratumModeConfirmed then Q () (s.dequeued.push .disconnect)
      else wp (loginFor E (s.uris a).stratumMode h result) (fun jReq t => match jReq with
        | none => Q () t
        | some jReq => wp (send E jReq) Q X t) X s.dequeued := by
  have hconn : s.dequeued.conn = s.conn := rfl
  have hdequeued : wp (loginReply E h result) Q X s ↔ wp (do
      let u ← getConn
      if !h.isSuccess && !u.stratumModeConfirmed then post .disconnect
      else
        match ← loginFor E u.stratumMode h result with
        | none => pure ()
        | some jReq => send E jReq) Q X s.dequeued := by
    rw [loginReply, wp_bind, wp_dequeueResponsePlea]
    exact Iff.rfl
  have hsend : (fun (jReq : Option Json) (t : St) => wp (match jReq with
      | none => pure ()
      | some jReq => send E jReq) Q X t) = fun jReq t => match jReq with
      | none => Q () t
      | some jReq => wp (send E jReq) Q X t := by
    funext jReq t
    cases jReq <;> rfl
  rw [hdequeued, wp_bind, wp_getConn, hconn]
  cases s.conn with
  | none => exact Iff.rfl
  | some a =>
    show wp (if !h.isSuccess && !(s.uris a).stratumModeConfirmed then _ else _) Q X s.dequeued ↔ _
    rw [wp_ite, wp_bind, hsend]
    exact Iff.rfl

/-! ## Handlers that leave the connection alone -/

def Out.isIdle : Out → Bool
  | onConnected | onWorkReceived _ | onSolutionAccepted .. | onSolutionRejected .. => true
  | _ => false

structure Idle (s t : St) : Prop where
  link : { t.link with endpoints := s.endpoints } = s.link
  queue : ∃ n, t.queue = s.queue ++ List.replicate n .disconnect
  log : ∃ new, t.log = new ++ s.log ∧ ∀ o ∈ new, o.isIdle = true
  uris : ∀ a, (s.uris a).Processed (t.uris a)

namespace Idle

variable {t : St}

theorem of_eq (hl : t.link = s.link) (hq : t.queue = s.queue) (hlog : t.log = s.log) (hu : t.uris = s.uris) :
    Idle s t where
  link := by rw [hl]; rfl
  queue := ⟨0, by simp [hq]⟩
  log := ⟨[], by simp [hlog]⟩
  uris a := hu ▸ .refl _

theorem refl (s : St) : Idle s s := of_eq rfl rfl rfl rfl

theorem trans (s t u : St) (h : Idle s t) (h' : Idle t u) : Idle s u where
  link := by
    have hlink : ({ u.link with endpoints := t.endpoints } : Link) = t.link := h'.link
    have hsame : ({ u.link with endpoints := s.endpoints } : Link) = { t.link with endpoints := s.endpoints } := by
      rw [← hlink]
    rw [hsame, h.link]
  queue := by
    obtain ⟨m, hm⟩ := h.queue
    obtain ⟨n, hn⟩ := h'.queue
    exact ⟨m + n, by rw [hn, hm, List.append_assoc, List.replicate_append_replicate]⟩
  log := by
    obtain ⟨x, hx, hxi⟩ := h.log
    obtain ⟨y, hy, hyi⟩ := h'.log
    refine ⟨y ++ x, by rw [hy, hx, List.append_assoc], fun o ho => ?_⟩
    rcases List.mem_append.mp ho with ho | ho
    · exact hyi o ho
    · exact hxi o ho
  uris a := (h.uris a).trans (h'.uris a)

end Idle

theorem Processed.idle {t : St} (h : Processed s t) : Idle s t where
  link := by rw [h.link]; rfl
  queue := h.queue
  log := by
    obtain ⟨new, hnew, hreply⟩ := h.log
    refine ⟨new, hnew, fun o ho => ?_⟩
    have := hreply o ho
    cases o <;> first | rfl | cases this
  uris := h.uris

theorem Sent.idle {t : St} (h : Sent s t) : Idle s t := by
  obtain ⟨_, _, _, _, _, rfl⟩ := h
  exact .of_eq rfl rfl rfl rfl

abbrev Rests {α : Type} (m : M α) : Prop := Keeps Idle (fun _ _ => True) m

theorem Rests.bind {α β : Type} {m : M α} {f : α → M β} (hm : Rests m) (hf : ∀ x, Rests (f x)) : Rests (m >>= f) :=
  Keeps.bind Idle.trans (fun _ _ _ _ _ => trivial) hm hf

theorem Rests.when {p : Prop} [Decidable p] {m : M Unit} (hm : p → Rests m) : Rests (when p m) :=
  Keeps.when Idle.refl hm

theorem Tame.rests {α : Type} {c : Faults} {m : M α} (h : Tame c m) : Rests m :=
  ⟨fun s => wp_mono (h.from_ s) (fun _ _ h => h.idle) fun _ _ h => ⟨h.1.idle, trivial⟩⟩

theorem get_rests : Rests (get : M St) := Keeps.get Idle.refl

theorem postDisconnect_rests : Rests (post .disconnect) := (postDisconnect_tame (c := ⟨true, true⟩)).rests

theorem stream_rests : Rests stream := by
  refine ⟨fun s => ?_⟩
  rw [wp_stream]
  cases s.conn with
  | none => exact ⟨.refl s, trivial⟩
  | some a => cases s.hasStream (s.uris a) <;> simp [Idle.refl s]

theorem recvSocketData_rests : Rests recvSocketData :=
  stream_rests.bind fun _ => Keeps.modify fun _ => .of_eq rfl rfl rfl rfl

theorem processTransmission_rests (rx : List Char) : Rests (processTransmission E rx) := by
  refine ⟨fun s => wp_processTransmission.mpr ?_⟩
  have hstart : Idle s (s.receiving rx) := .of_eq rfl rfl rfl rfl
  have hlines : ∀ t, Consumed (s.receiving rx) t → Idle s t := fun t h =>
    hstart.trans _ _ _ ⟨h.idle.link, h.idle.queue, h.idle.log, h.idle.uris⟩
  exact wp_mono ((consume_keeps _).from_ _) (fun _ t h => hlines t h) fun _ t h => ⟨hlines t h.1, trivial⟩

theorem onRecvSocketDataCompleted_rests (data : Option (List Char)) : Rests (onRecvSocketDataCompleted E data) := by
  cases data with
  | none =>
    refine get_rests.bind fun s => .when fun _ => Rests.bind (.when fun _ => ?_) fun _ => postDisconnect_rests
    exact (modifyConn_tame (c := ⟨true, true⟩) Uri.markUnrecoverable_processed).rests
  | some rx =>
    refine (processTransmission_rests rx).bind fun _ => get_rests.bind fun s => Rests.bind (.when fun _ => ?_) fun _ =>
      .when fun _ => recvSocketData_rests
    exact onWorkReceived_keeps (fun _ => ⟨rfl, ⟨0, by simp⟩, ⟨[_], rfl, by simp [Out.isIdle]⟩, fun _ => .refl _⟩)
      fun _ => trivial

theorem stampTransmission_rests : Rests stampTransmission :=
  get_rests.bind fun _ => .when fun _ => (getConn_tame (c := ⟨true, true⟩)).rests.bind fun _ => .when fun _ =>
    (onSession_tame (c := ⟨true, true⟩) rfl (.modify _)).rests

theorem onSendSocketDataCompleted_rests (ec : Option WriteError) : Rests (onSendSocketDataCompleted ec) := by
  cases ec with
  | none =>
    refine stampTransmission_rests.bind fun _ => get_rests.bind fun s => Keeps.ite (fun _ => ?_) fun _ => ?_
    · exact Keeps.modify fun _ => .of_eq rfl rfl rfl rfl
    · exact (sendSocketData_tame (c := ⟨true, true⟩)).rests
  | some ec =>
    exact Rests.bind (Keeps.modify fun _ => .of_eq rfl rfl rfl rfl) fun _ =>
      Rests.bind (.when fun _ => postDisconnect_rests) fun _ => get_rests.bind
        fun _ => .when fun _ => postDisconnect_rests

theorem submitSolution_rests (solution : Solution) : Rests (submitSolution E solution) := by
  refine get_rests.bind fun s => ?_
  cases s.session with
  | none => exact Keeps.pure Idle.refl _
  | some session =>
    exact .when fun _ => Rests.bind (Keeps.modify fun _ => .of_eq rfl rfl rfl rfl) fun _ =>
      (getConn_tame (c := ⟨true, true⟩)).rests.bind fun _ => (raise_tame (c := ⟨true, true⟩) _).rests.bind fun _ =>
      (enqueueResponsePlea_tame (c := ⟨true, true⟩)).rests.bind fun _ => (send_tame (c := ⟨true, true⟩) _).rests

theorem submitHashrate_rests (rate : UInt64) (id : String) : Rests (submitHashrate E rate id) := by
  refine get_rests.bind fun s => .when fun _ => (getConn_tame (c := ⟨true, true⟩)).rests.bind fun u =>
    Keeps.ite (fun _ => ?_) fun _ => (send_tame (c := ⟨true, true⟩) _).rests
  cases s.session with
  | none => exact Keeps.throw Idle.refl fun _ => trivial
  | some session => exact (send_tame (c := ⟨true, true⟩) _).rests

/-! ## The tick -/

/-- The connection did not survive a timeout; `rest` are the endpoints left. -/
def St.timedOut (s : St) (rest : List Nat) : St :=
  { s with endpoints := rest, pleas := Pleas.clear s.now, queue := s.queue ++ [.disconnect] }

theorem wp_timeOut : wp timeOut Q X s ↔ match s.endpoints with
    | [] => X .emptyEndpoints s
    | _ :: rest => Q () (s.timedOut rest) := by
  rw [timeOut, wp_bind, wp_popEndpoint]
  cases s.endpoints <;> exact Iff.rfl

def loginOverdue (E : Env) (s : St) (a : Nat) : Bool :=
  decide (0 < s.pleas.count) && s.isConnected &&
    decide (E.responseTimeout * 1000 ≤ toMilliseconds (s.now - s.pleas.older)) &&
    (!(s.uris a).stratumModeConfirmed && !(s.uris a).unrecoverable)

def St.answering (s : St) : St :=
  { s with pleas := Pleas.clear s.now, queue := s.queue ++ [.processResponse noLoginReply] }

/-- What a tick does before it arms the timer again, from the state in which no noop is due. -/
inductive Checked (E : Env) (s : St) (a : Nat) : St → Prop
  | on : Checked E s a s
  | timedOut (rest : List Nat) : Checked E s a (s.timedOut rest)
  | answer (h : loginOverdue E s a = true) : Checked E s a s.answering

theorem checkTimeouts_checked (hcount : 0 < s.pleas.count) :
    wp (checkTimeouts E (s.uris a)) (fun _ t => Checked E s a t) (fun _ t => t = s) s := by
  have htimeOut : wp timeOut (fun _ t => Checked E s a t) (fun _ t => t = s) s := by
    rw [wp_timeOut]
    split
    · rfl
    · exact .timedOut _
  rw [checkTimeouts, wp_bind, wp_get, wp_when]
  split
  case isTrue hconnected =>
    rw [wp_ite]
    split
    case isTrue htime =>
      rw [wp_ite]
      split
      case isTrue hlogin =>
        simp only [wp_bind, clearResponsePleas, post, wp_modify]
        refine .answer ?_
        rw [loginOverdue, hconnected, hlogin]
        simp [hcount, htime]
      case isFalse => exact htimeOut
    case isFalse =>
      rw [wp_when]
      split
      · exact htimeOut
      · exact .on
  case isFalse => exact .on

def St.hasPending (s : St) : Bool := if s.connecting then s.socket else s.securesocket

theorem wp_closePending :
    wp closePending Q X s ↔ if s.hasPending then Q () s.closed else X .nullSocket s := by
  rw [closePending, wp_bind, wp_get, wp_bind, wp_when, wp_throw, wp_closeSocket]
  show (if (!s.hasPending) = true then X .nullSocket s else Q () s.closed) ↔ _
  cases s.hasPending <;> rfl

theorem keepAlive_sent (u : Uri) : Keeps Sent (fun x _ => x.isStd = false) (keepAlive E u) := by
  refine Keeps.bind Sent.trans (fun _ _ _ _ h => h) (Keeps.get Sent.refl) fun s => ?_
  cases s.session with
  | none => exact Keeps.pure Sent.refl _
  | some session => exact Keeps.when Sent.refl fun _ => send_sent _

/-- A tick on a connection: the noop, and then a pending operation, or the timeouts and the next tick. -/
theorem wp_workloopTimerElapsed_false (hc : s.conn = some a) : wp (workloopTimerElapsed E false) Q X s ↔
    wp (keepAlive E (s.uris a)) (fun _ t =>
      if 0 < t.pleas.count ∧ closesPending E t (t.uris a) then wp closePending Q X t
      else wp (when (0 < t.pleas.count) (checkTimeouts E (t.uris a))) (fun _ u => Q () u.ticking) X t) X s := by
  have htick : wp (workloopTimerElapsed E false) Q X s ↔ wp (do
      keepAlive E (s.uris a)
      let s ← get
      if 0 < s.pleas.count ∧ closesPending E s (s.uris a) then closePending
      else
        when (0 < s.pleas.count) (checkTimeouts E (s.uris a))
        armWorkloop) Q X s := by
    rw [workloopTimerElapsed, wp_bind, wp_get, hc]
    exact Iff.rfl
  simp only [htick, wp_bind, wp_get, wp_ite, wp_armWorkloop]

/-- Does a tick in this state close the socket of a pending operation? -/
def closesAt (E : Env) (s : St) (a : Nat) : Bool := decide (0 < s.pleas.count) && closesPending E s (s.uris a)

def Ticked (E : Env) (s : St) (a : Nat) (t : St) : Prop := ∃ u, Sent s u ∧ Checked E u a t

/-- A tick closes the socket of a pending operation, or arms the timer again. -/
theorem wp_workloopTimerElapsed_of (hc : s.conn = some a)
    (hclose : ∀ t, Sent s t → closesAt E s a = true → Q () t.closed)
    (htick : ∀ t, Ticked E s a t → closesAt E s a = false → Q () t.ticking)
    (hstop : ∀ x t, Sent s t → X x t) : wp (workloopTimerElapsed E false) Q X s := by
  rw [wp_workloopTimerElapsed_false hc]
  refine wp_mono ((keepAlive_sent _).from_ s) (fun _ t ht => ?_) fun x t h => hstop x t h.1
  have hsame : closesAt E t a = closesAt E s a := by
    obtain ⟨_, _, _, _, _, rfl⟩ := ht
    rfl
  split
  case isTrue h =>
    have hs : closesAt E s a = true := by rw [← hsame]; simpa [closesAt] using h
    rw [wp_closePending]
    split
    · exact hclose t ht hs
    · exact hstop _ t ht
  case isFalse h =>
    have hs : closesAt E s a = false := by rw [← hsame]; simpa [closesAt] using h
    rw [wp_when]
    split
    case isTrue hcount =>
      refine wp_mono (checkTimeouts_checked (a := a) hcount) (fun _ u hu => ?_) fun x u hu => hstop x u (hu ▸ ht)
      exact htick u ⟨t, ht, hu⟩ hs
    case isFalse => exact htick t ⟨t, ht, .on⟩ hs

theorem timedOut_idle (s : St) (rest : List Nat) : Idle s (s.timedOut rest) where
  link := rfl
  queue := ⟨1, rfl⟩
  log := ⟨[], rfl, by simp⟩
  uris _ := .refl _

/-- A tick rests, or answers in the pool's place. -/
theorem Ticked.cases {t : St} (h : Ticked E s a t) :
    Idle s t ∨ ∃ u, Sent s u ∧ loginOverdue E s a = true ∧ t = u.answering := by
  obtain ⟨u, hu, hchecked⟩ := h
  have hsame : loginOverdue E u a = loginOverdue E s a := by
    obtain ⟨_, _, _, _, _, rfl⟩ := hu
    rfl
  cases hchecked with
  | on => exact .inl hu.idle
  | timedOut rest => exact .inl (hu.idle.trans _ _ _ (timedOut_idle u rest))
  | answer ho => exact .inr ⟨u, hu, hsame ▸ ho, rfl⟩

theorem wp_workloopTimerElapsed_none {aborted : Bool} (hc : s.conn = none) :
    wp (workloopTimerElapsed E aborted) Q X s ↔ Q () s := by
  rw [workloopTimerElapsed, wp_bind, wp_get, hc]
  exact Iff.rfl

theorem wp_workloopTimerElapsed_true : wp (workloopTimerElapsed E true) Q X s ↔ Q () s := by
  rw [workloopTimerElapsed, wp_bind, wp_get]
  cases s.conn <;> exact Iff.rfl

/-! ## The pool manager -/

def St.rebound (s : St) (a : Nat) : St :=
  { s.newClient a with log := .setConnection a :: s.log }.updateUri a fun u => { u with responds := false }

theorem wp_rotateConnect {choice : Option (Nat × Bool)} : wp (rotateConnect choice) Q X s ↔
    if s.started && s.isConnected then Q () s
    else match choice with
      | none => Q () s
      | some (a, delayed) =>
        if delayed then Q () { s.rebound a with reconnectPending := true } else wp connect Q X (s.rebound a) := by
  unfold rotateConnect
  rw [wp_bind, wp_get, wp_when]
  cases s.started && s.isConnected with
  | true => exact Iff.rfl
  | false =>
    cases choice with
    | none => exact Iff.rfl
    | some c =>
      obtain ⟨a, delayed⟩ := c
      cases delayed <;> exact Iff.rfl

theorem wp_reconnectTimerElapsed :
    wp reconnectTimerElapsed Q X s ↔ if s.isConnected then Q () s else wp connect Q X s := by
  rw [reconnectTimerElapsed, wp_bind, wp_get, wp_when]
  cases s.isConnected <;> exact Iff.rfl

/-! ## Runs -/

inductive Fired (E : Env) (s : St) : Ev → St → Prop
  | run {choice : Option (Nat × Bool)} {k : Handler} {queue : List Handler} (h : s.queue = k :: queue) :
    Fired E s (.run choice) (call (runHandler E choice k) { s with queue })
  | timerExpires {d : Nat} (h : s.timer = some (.until d)) (hd : d ≤ s.now) :
    Fired E s .timerExpires ({ s with timer := none }.push (.workloopTimerElapsed false))
  | resolved {endpoints : Option (List Nat)} (h : 0 < s.resolves) :
    Fired E s (.resolved endpoints) ({ s with resolves := s.resolves - 1 }.push (.resolveHandler endpoints))
  | connectCompletes {ec handshakeFails : Bool} (h : 0 < s.connects) :
    Fired E s (.connectCompletes ec handshakeFails)
      ({ s with connects := s.connects - 1 }.push (.connectHandler ec handshakeFails))
  | received {data : List Char} (h : 0 < s.reads) (hd : data ≠ []) :
    Fired E s (.received data) ({ s with reads := s.reads - 1 }.push (.onRecvSocketDataCompleted (some data)))
  | readFails (h : 0 < s.reads) :
    Fired E s .readFails ({ s with reads := s.reads - 1 }.push (.onRecvSocketDataCompleted none))
  | written {n : Nat} {writes : List Nat} (h : s.writes = n :: writes) :
    Fired E s .written ({ s with
      writes := writes
      sendBuffer := s.sendBuffer.drop n
      written := s.written ++ s.sendBuffer.take n
      log := .wrote (s.sendBuffer.take n) :: s.log }.push (.onSendSocketDataCompleted none))
  | writeFails {ec : WriteError} {n : Nat} {writes : List Nat} (h : s.writes = n :: writes) :
    Fired E s (.writeFails ec) ({ s with writes := writes }.push (.onSendSocketDataCompleted (some ec)))
  | shutdownCompletes (h : 0 < s.shutdowns) :
    Fired E s .shutdownCompletes ({ s with shutdowns := s.shutdowns - 1 }.push .onSSLShutdownCompleted)
  | reconnectTimerExpires (h : s.reconnectPending = true) :
    Fired E s .reconnectTimerExpires ({ s with reconnectPending := false }.push .reconnectTimerElapsed)
  | advance {ns : Nat} : Fired E s (.advance ns) { s with now := s.now + ns }
  | callDisconnect (h : s.started = true) : Fired E s .callDisconnect (call disconnect s)
  | stopConnected (h : s.started = true) (hc : s.isConnected = true) :
    Fired E s .stop (call disconnect { s with stopping := true })
  | stopUnconnected (h : s.started = true → s.isConnected = false) :
    Fired E s .stop { s with stopping := true, reconnectPending := false }
  | submitSolution {solution : Solution} (hc : s.isConnected = true) :
    Fired E s (.submitSolution solution) (call (Stratum.submitSolution E solution) s)
  | submitHashrate {rate : UInt64} {id : String} (hc : s.isConnected = true) :
    Fired E s (.submitHashrate rate id) (call (Stratum.submitHashrate E rate id) s)

theorem fire_cases {e : Ev} {t : St} (h : fire E s e = some t) : Fired E s e t := by
  cases e with
  | run choice =>
    simp only [fire] at h
    split at h
    · cases h
    · cases h
      exact .run ‹_›
  | timerExpires =>
    simp only [fire] at h
    split at h
    · split at h
      · cases h
        exact .timerExpires ‹_› ‹_›
      · cases h
    · cases h
  | resolved endpoints =>
    obtain ⟨hpos, ⟨⟩⟩ := Option.ite_none_right_eq_some.mp h
    exact .resolved hpos
  | connectCompletes ec handshakeFails =>
    obtain ⟨hpos, ⟨⟩⟩ := Option.ite_none_right_eq_some.mp h
    exact .connectCompletes hpos
  | received data =>
    obtain ⟨hpos, ⟨⟩⟩ := Option.ite_none_right_eq_some.mp h
    exact .received hpos.1 hpos.2
  | readFails =>
    obtain ⟨hpos, ⟨⟩⟩ := Option.ite_none_right_eq_some.mp h
    exact .readFails hpos
  | written =>
    simp only [fire] at h
    split at h
    · cases h
    · cases h
      exact .written ‹_›
  | writeFails ec =>
    simp only [fire] at h
    split at h
    · cases h
    · cases h
      exact .writeFails ‹_›
  | shutdownCompletes =>
    obtain ⟨hpos, ⟨⟩⟩ := Option.ite_none_right_eq_some.mp h
    exact .shutdownCompletes hpos
  | reconnectTimerExpires =>
    obtain ⟨hpending, ⟨⟩⟩ := Option.ite_none_right_eq_some.mp h
    exact .reconnectTimerExpires hpending
  | advance ns =>
    cases h
    exact .advance
  | callDisconnect =>
    obtain ⟨hstarted, ⟨⟩⟩ := Option.ite_none_right_eq_some.mp h
    exact .callDisconnect hstarted
  | stop =>
    simp only [fire] at h
    split at h
    case isTrue hc =>
      cases h
      rw [Bool.and_eq_true] at hc
      exact .stopConnected hc.1 hc.2
    case isFalse hc =>
      cases h
      exact .stopUnconnected fun hs => by simpa [hs] using hc
  | submitSolution solution =>
    obtain ⟨hc, ⟨⟩⟩ := Option.ite_none_right_eq_some.mp h
    rw [Bool.and_eq_true] at hc
    exact .submitSolution hc.2
  | submitHashrate rate id =>
    obtain ⟨hc, ⟨⟩⟩ := Option.ite_none_right_eq_some.mp h
    rw [Bool.and_eq_true] at hc
    exact .submitHashrate hc.2

def Ev.isCompletion : Ev → Bool
  | timerExpires | resolved _ | connectCompletes .. | received _ | readFails | written | writeFails _
  | shutdownCompletes | reconnectTimerExpires | advance _ => true
  | _ => false

/-- A completion leaves the URIs alone; all that is observed is what was written. -/
theorem Fired.completion {e : Ev} {t : St} (h : Fired E s e t) (he : e.isCompletion = true) :
    t.uris = s.uris ∧ (t.log = s.log ∨ ∃ bytes, t.log = .wrote bytes :: s.log) := by
  cases h with
  | written _ => exact ⟨rfl, .inr ⟨_, rfl⟩⟩
  | run _ | callDisconnect _ | stopConnected _ _ | stopUnconnected _ | submitSolution _ | submitHashrate _ => cases he
  | _ => exact ⟨rfl, .inl rfl⟩

theorem call_of_wp {m : M Unit} {P : St → Prop}
    (h : wp m (fun _ t => P t) (fun x t => P { t with crashed := some x }) s) : P (call m s) := by
  unfold call
  rcases hm : m.exec s with ⟨x | _, t⟩
  · exact (wp_iff_exec.mp h).2 x t hm
  · exact (wp_iff_exec.mp h).1 _ t hm

theorem fired_of_step {e : Ev} {t : St} (h : step E s e = some t) : s.crashed = none ∧ Fired E s e t := by
  rw [step] at h
  split at h
  · cases h
  · rename_i hc
    exact ⟨by simpa using hc, fire_cases h⟩

/-- What holds at the start, and after every step from a state where it holds, holds in every run. -/
theorem run_invariant {C : St → Ev → Prop} {I : St → Prop} (hinit : ∀ uris, (∀ a, (uris a).Fresh) → I (init uris))
    (hstep : ∀ s e t, I s → s.crashed = none → C s e → Fired E s e t → I t) (h : Run E C s) : I s := by
  induction h with
  | init hfresh => exact hinit _ hfresh
  | @step s t e _ hC hst ih =>
    obtain ⟨hcrash, hf⟩ := fired_of_step hst
    exact hstep s e t ih hcrash hC hf

end CoreMiner.Stratum
