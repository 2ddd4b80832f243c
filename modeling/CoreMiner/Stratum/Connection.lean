/-
  CoreMiner.Stratum.Connection — connecting, disconnecting, timing and sending
  (`XcbStratumClient.cpp`: everything but the processing of messages).

  An operation on a socket that is cancelled or closed completes with an error: its handler
  joins the queue. Setting the expiry of the workloop timer cancels the wait armed before,
  whose handler joins the queue too, as aborted.
-/

import CoreMiner.Stratum.Receive

namespace CoreMiner.Stratum

open DevCore EthCore Lib
open Prog (when)

variable (E : Env)

/-! ## The socket and the timer -/

def abortOperations : M Unit := modify fun s => { s with
  queue := s.queue ++
    List.replicate s.reads (.onRecvSocketDataCompleted none) ++
    List.replicate s.writes.length (.onSendSocketDataCompleted (some .other)) ++
    List.replicate s.connects (.connectHandler true false) ++
    List.replicate s.shutdowns .onSSLShutdownCompleted
  reads := 0
  writes := []
  connects := 0
  shutdowns := 0 }

def closeSocket : M Unit := do
  modify fun s => { s with isOpen := false }
  abortOperations

/-- `m_socket->cancel()`, in the overload that throws: a closed socket has no descriptor. -/
def cancelSocket : M Unit := do
  let s ← get
  if s.isOpen then abortOperations else throw (.exception .systemError)

def armTimer (wait : Wait) : M Unit := modify fun s => { s with
  queue := if s.timer.isSome then s.queue ++ [.workloopTimerElapsed true] else s.queue
  timer := some wait }

def workloopInterval : Nat := 1000000000

def armWorkloop : M Unit := do
  let s ← get
  armTimer (.until (s.now + workloopInterval))

/-- `init_socket`: a new, closed socket; the object it replaces is destroyed. -/
def initSocket : M Unit := do
  let u ← getConn
  closeSocket
  modify fun s => { s with socket := true, securesocket := s.securesocket || u.secure }

/-! ## Disconnecting -/

/-- The end of `disconnect_finalize` that reports the loss. `PoolManager`'s handler unsets the
    connection and, unless it is stopping, posts `rotateConnect`. -/
def reportDisconnect : M Unit := do
  clearResponsePleas
  modify fun s => { s with solutionSubmittedMaxId := 0 }
  armTimer .forever
  emit .onDisconnected
  modify fun s => { s with
    conn := none
    queue := if s.stopping then s.queue else s.queue ++ [.rotateConnect] }

/-- A connection lost while the mode is being detected is not reported: the next flavour is
    tried on it. -/
def retriesNextMode (u : Uri) : Bool :=
  !u.unrecoverable && !u.stratumModeConfirmed && u.responds

/-- Lower the mode and post `start_connect`, or give the connection up after mode 0. -/
def tryNextMode (u : Uri) : M Unit :=
  if 0 < u.stratumMode then do
    modifyConn fun u => { u with stratumMode := u.stratumMode - 1 }
    post .startConnect
    let s ← get
    emit (.reposted s.conn)
  else do
    modifyConn Uri.markUnrecoverable
    reportDisconnect

def releaseSession : M Unit := do
  let s ← get
  match s.session with
  | none => pure ()
  | some session =>
    modifyConn fun u => { u with totalDuration := u.totalDuration + (s.now - session.start) / 60000000000 }
    modify fun s => { s with session := none }

def disconnectFinalize : M Unit := do
  let s ← get
  emit (.finalizing s.conn)
  closeSocket
  modify fun s => { s with socket := false }
  releaseSession
  modify fun s => { s with authpending := false, disconnecting := false, txPending := false }
  let u ← getConn
  if retriesNextMode u then tryNextMode u else reportDisconnect

def shutdownSocket : M Unit := do
  let u ← getConn
  if u.secure then
    modify fun s => { s with shutdowns := s.shutdowns + 1 }
    enqueueResponsePlea
  else
    closeSocket
    disconnectFinalize

def disconnect : M Unit := do
  let s ← get
  when (!s.disconnecting) do
    modify fun s => { s with disconnecting := true, connected := false }
    if s.socket then
      -- `cancel` throws on a closed socket, so behind it the socket is open.
      cancelSocket
      shutdownSocket
    else disconnectFinalize

def onSSLShutdownCompleted : M Unit := do
  clearResponsePleas
  post .disconnectFinalize

/-! ## Connecting -/

/-- The resolver is replaced, which cancels what the old one was doing; a host that is an
    address needs none. -/
def resolve (u : Uri) : M Unit :=
  if u.hostNameType = .dns ∨ u.hostNameType = .basic then
    modify fun s => { s with
      queue := s.queue ++ List.replicate s.resolves (.resolveHandler none)
      resolves := 1 }
  else do
    modify fun s => { s with endpoints := [0] }
    post .startConnect

def connect : M Unit := do
  let s ← get
  when (!s.connecting) do
    armWorkloop
    modify fun s => { s with authpending := false }
    when (!s.socket) initSocket
    modify fun s => { s with endpoints := [] }
    let u ← getConn
    resolve u

def giveUpConnecting : M Unit := do
  let _ ← getConn
  modify fun s => { s with connecting := false }
  disconnectFinalize

def resolveHandler (endpoints : Option (List Nat)) : M Unit :=
  match endpoints with
  | some l => do
    modify fun s => { s with endpoints := s.endpoints ++ l }
    post .startConnect
  | none => giveUpConnecting

def asyncConnect : M Unit := do
  let s ← get
  when (!s.socket) initSocket
  clearResponsePleas
  enqueueResponsePlea
  modify fun s => { s with solutionSubmittedMaxId := 0 }
  let _ ← getConn
  modify fun s => { s with isOpen := true, connects := s.connects + 1 }

def startConnect : M Unit := do
  let s ← get
  when (!s.connecting) do
    modify fun s => { s with connecting := true }
    if s.endpoints.isEmpty then giveUpConnecting else asyncConnect

def loginRequest (u : Uri) : Json :=
  match u.stratumMode with
  | 0 => .obj [("id", .int 1), ("method", .str "mining.subscribe"), ("params", .arr []), ("jsonrpc", .str "2.0")]
  | 1 => .obj ([("id", .int 1), ("method", .str "eth_submitLogin"),
      ("params", .arr (.str (u.user ++ u.path) :: if u.pass ≠ "" then [.str u.pass] else []))] ++
      if u.workername ≠ "" then [("worker", .str u.workername)] else [])
  | 2 => .obj [("id", .int 1), ("method", .str "mining.subscribe"),
      ("params", .arr [.str E.projectNameWithVersion, .str "CoreStratum/1.0.0"])]
  | 3 => .obj [("id", .int 1), ("method", .str "mining.hello"),
      ("params", .obj [("agent", .str E.projectNameWithVersion), ("host", .str u.host),
        ("port", .str (toCompactHex u.port)), ("proto", .str "CoreStratum/2.0.0")])]
  | _ => .obj [("id", .int 1), ("method", .str "mining.subscribe"), ("params", .arr [])]

def chooseMode (u : Uri) : Uri :=
  if u.version < 999 then u.setStratumMode u.version true
  else if !u.stratumModeConfirmed && u.stratumMode = 999 then u.setStratumMode CORESTRATUM2 false
  else u

def login : M Unit := do
  modify fun s => { s with sendBuffer := s.sendBuffer.drop 4096 }
  clearResponsePleas
  modifyConn chooseMode
  let u ← getConn
  recvSocketData
  enqueueResponsePlea
  send E (loginRequest E u)

def connectFailed : M Unit := do
  let s ← get
  when s.isOpen closeSocket
  popEndpoint
  post .startConnect

def connectEstablished (handshakeFails : Bool) : M Unit := do
  modifyConn fun u => { u with responds := true }
  modify fun s => { s with
    connected := true, message := [], txQueue := [], sent := [], written := [], writeFailed := false }
  let u ← getConn
  if u.secure && handshakeFails then abandon else login E

/-- With or without an error the socket is asked whether it is open. -/
def connectHandler (ec handshakeFails : Bool) : M Unit := do
  modify fun s => { s with connecting := false }
  let s ← get
  when (!s.socket) (throw .nullSocket)
  if ec || !s.isOpen then connectFailed else connectEstablished E handshakeFails

/-! ## The workloop -/

def seconds (ns : Nat) : Nat := ns / 1000000000

def keepAlive (u : Uri) : M Unit := do
  let s ← get
  match s.session with
  | none => pure ()
  | some session =>
    when (u.stratumMode = CORESTRATUM2 ∧ toInt32 session.timeout.toUInt64 - 5 < seconds (s.now - session.lastTxStamp))
      (send E (.obj [("id", .int 7), ("method", .str "mining.noop")]))

def noLoginReply : Json := .obj [("id", .int 1), ("result", .null), ("error", .bool true)]

/-- While connecting or disconnecting: does this tick close the socket (and return)? The
    comparison is the source's, which is true as long as the timeout is not over. -/
def closesPending (s : St) (u : Uri) : Bool :=
  s.isPendingState && decide (toMilliseconds (s.now - s.pleas.older) ≤ E.responseTimeout * 1000) &&
    (s.connecting || (s.disconnecting && u.secure && (!s.securesocket || s.isOpen)))

def timeOut : M Unit := do
  popEndpoint
  clearResponsePleas
  post .disconnect

def checkTimeouts (u : Uri) : M Unit := do
  let s ← get
  when s.isConnected do
    if E.responseTimeout * 1000 ≤ toMilliseconds (s.now - s.pleas.older) then
      if !u.stratumModeConfirmed && !u.unrecoverable then
        clearResponsePleas
        post (.processResponse noLoginReply)
      else timeOut
    else when (s.session.isSome && decide (E.workTimeout < seconds (s.now - s.currentTimestamp))) timeOut

def closePending : M Unit := do
  let s ← get
  when (!(if s.connecting then s.socket else s.securesocket)) (throw .nullSocket)
  closeSocket

/-- Closing a pending operation returns without arming the timer again. -/
def workloopTimerElapsed (aborted : Bool) : M Unit := do
  let s ← get
  match s.conn with
  | none => pure ()
  | some a =>
    when (!aborted) do
      keepAlive E (s.uris a)
      let s ← get
      if 0 < s.pleas.count ∧ closesPending E s (s.uris a) then closePending
      else
        when (0 < s.pleas.count) (checkTimeouts E (s.uris a))
        armWorkloop

/-! ## Sending -/

def stampTransmission : M Unit := do
  let s ← get
  when s.session.isSome do
    let u ← getConn
    when (u.stratumMode = CORESTRATUM2) (onSession (modify fun x => { x with lastTxStamp := s.now }))

def onSendSocketDataCompleted (ec : Option WriteError) : M Unit :=
  match ec with
  | some ec => do
    modify fun s => { s with sendBuffer := [], txQueue := [], txPending := false, writeFailed := true }
    when (ec = .sslProtocolIsShutdown) (post .disconnect)
    let s ← get
    when s.isConnected (post .disconnect)
  | none => do
    stampTransmission
    let s ← get
    if s.txQueue.isEmpty then modify fun s => { s with txPending := false }
    else sendSocketData

/-- The nonce as the pool expects it: without the digits the pool gave out. -/
def ownDigits (solution : Solution) : Except StdException String :=
  substr (toHex solution.nonce .dontAdd 16) solution.work.exSizeBytes.toNat

def submitRequest (u : Uri) (workerId : String) (solution : Solution) : Except StdException Json := do
  let id : Json := .int (40 + solution.midx)
  let worker := if u.workername ≠ "" then [("worker", Json.str u.workername)] else []
  let hashes := [Json.str (toHex solution.nonce .add 16), .str (solution.work.header.hex .add),
    .str (solution.mixHash.hex .add)]
  match u.stratumMode with
  | 0 => return .obj ([("id", id), ("method", .str "mining.submit"),
      ("params", .arr ([.str u.user, .str solution.work.job] ++ hashes)), ("jsonrpc", .str "2.0")] ++ worker)
  | 1 => return .obj ([("id", id), ("method", .str "eth_submitWork"), ("params", .arr hashes)] ++ worker)
  | 2 => return .obj [("id", id), ("method", .str "mining.submit"),
      ("params", .arr [.str u.userDotWorker, .str solution.work.job, .str (← ownDigits solution)])]
  | 3 => return .obj [("id", id), ("method", .str "mining.submit"),
      ("params", .arr [.str solution.work.job, .str (← ownDigits solution), .str workerId])]
  | _ => return .obj [("id", id), ("method", .str "mining.submit"), ("params", .arr [])]

def submitSolution (solution : Solution) : M Unit := do
  let s ← get
  match s.session with
  | none => pure ()
  | some session =>
    when session.authorized do
      modify fun s => { s with solutionSubmittedMaxId := max s.solutionSubmittedMaxId (40 + solution.midx) }
      let u ← getConn
      let jReq ← raise (submitRequest u session.workerId solution)
      enqueueResponsePlea
      send E jReq

def hashrateRequest (u : Uri) (workerId : String) (rate : UInt64) (id : String) : Json :=
  if u.stratumMode ≠ CORESTRATUM2 then
    .obj ([("id", .int 9), ("params", .arr [.str (toHex rate .add 32), .str id]), ("jsonrpc", .str "2.0"),
      ("method", .str "eth_submitHashrate")] ++
      if u.workername ≠ "" then [("worker", .str u.workername)] else [])
  else
    .obj [("id", .int 9), ("params", .arr [.str (toCompactHex rate.toNat), .str workerId]),
      ("method", .str "mining.hashrate")]

def submitHashrate (rate : UInt64) (id : String) : M Unit := do
  let s ← get
  when s.isConnected do
    let u ← getConn
    if u.stratumMode = CORESTRATUM2 then
      match s.session with
      | none => throw .nullSession
      | some session => send E (hashrateRequest u session.workerId rate id)
    else send E (hashrateRequest u "" rate id)

end CoreMiner.Stratum
