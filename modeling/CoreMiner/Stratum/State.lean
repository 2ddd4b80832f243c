/-
  CoreMiner.Stratum.State — the state of the stratum client and of what it runs on, and the
  primitive steps its functions are made of (`XcbStratumClient.h`, `PoolClient.h`,
  `PoolURI.h`; `XcbStratumClient.cpp`: the plea wrappers, `send`, `sendSocketData`,
  `recvSocketData`).

  One thread runs the `io_service`, so its ready handlers are one queue, executed in posting
  order, each to its end; completions of asynchronous operations and of timers join the same
  queue. `log` records what an observer sees: the callbacks the client fires, and the entry
  into `disconnect_finalize` with the connection held then.

  The URIs are shared objects that outlive the client, so they are a heap (`uris`) and
  `conn` is a pointer into it. A function of the client is a program on the whole state; a
  null pointer it follows is a `Stop`.
-/

import CoreMiner.Stratum.Pleas
import CoreMiner.Stratum.Session

namespace CoreMiner.Stratum

open DevCore EthCore Lib
open Prog (when zoom)

/-! ## URIs -/

inductive SecureLevel where
  | none
  | tls12
  | tls
  deriving DecidableEq, Repr

inductive UriHostNameType where
  | unknown
  | basic
  | dns
  | ipv4
  | ipv6
  deriving DecidableEq, Repr

structure Uri where
  /-- `Version()` of the scheme: a stratum mode, or 999 for autodetection. -/
  version : Nat
  secLevel : SecureLevel
  hostNameType : UriHostNameType
  host : String := ""
  port : Nat := 0
  path : String := ""
  user : String := ""
  pass : String := "X"
  workername : String := ""
  stratumMode : Nat := 999
  stratumModeConfirmed : Bool := false
  unrecoverable : Bool := false
  responds : Bool := false
  totalDuration : Nat := 0
  deriving DecidableEq

namespace Uri

def userDotWorker (u : Uri) : String := if u.workername ≠ "" then u.user ++ "." ++ u.workername else u.user

def setStratumMode (u : Uri) (mode : Nat) (confirmed : Bool) : Uri :=
  { u with stratumMode := mode, stratumModeConfirmed := confirmed }

def markUnrecoverable (u : Uri) : Uri := { u with unrecoverable := true }

def secure (u : Uri) : Bool := u.secLevel ≠ .none

end Uri

/-! ## Handlers and observations -/

/-- The error a write can end with: the one `onSendSocketDataCompleted` tells apart, or any
    other one. -/
inductive WriteError where
  | sslProtocolIsShutdown
  | other
  deriving DecidableEq, Repr

inductive Handler where
  | startConnect
  | disconnect
  | disconnectFinalize
  | resolveHandler (endpoints : Option (List Nat))
  /-- The socket's error code, and what the TLS handshake will say. -/
  | connectHandler (ec handshakeFails : Bool)
  | workloopTimerElapsed (aborted : Bool)
  | onRecvSocketDataCompleted (data : Option (List Char))
  | onSendSocketDataCompleted (ec : Option WriteError)
  | onSSLShutdownCompleted
  | processResponse (response : Json)
  /-- The pool manager's handlers. -/
  | rotateConnect
  | reconnectTimerElapsed

inductive Out where
  | setConnection (a : Nat)
  | onConnected
  | onDisconnected
  /-- `disconnect_finalize` was entered while `m_conn` was this. -/
  | finalizing (conn : Option Nat)
  /-- `disconnect_finalize` posted `start_connect` instead of reporting the disconnect. -/
  | reposted (conn : Option Nat)
  | onWorkReceived (wp : WorkPackage)
  | onSolutionAccepted (delay miner : Nat) (stale : Bool)
  | onSolutionRejected (delay miner : Nat)
  | wrote (bytes : List Char)
  deriving DecidableEq

inductive Wait where
  | until (t : Nat)
  | forever
  deriving DecidableEq, Repr

/-! ## The state -/

/-- The members of one `XcbStratumClient`, with the operations it has under way. -/
structure Client where
  conn : Option Nat := none
  session : Option Session := none
  connected : Bool := false
  disconnecting : Bool := false
  connecting : Bool := false
  authpending : Bool := false
  current : WorkPackage := {}
  currentTimestamp : Nat := 0
  /-- `m_socket` is not null. -/
  socket : Bool := false
  /-- `m_securesocket` is not null; it survives `m_socket`. -/
  securesocket : Bool := false
  /-- The socket itself is open. -/
  isOpen : Bool := false
  message : List Char := []
  newjobprocessed : Bool := false
  sendBuffer : List Char := []
  timer : Option Wait := none
  pleas : Pleas := Pleas.clear 0
  txPending : Bool := false
  txQueue : List String := []
  endpoints : List Nat := []
  solutionSubmittedMaxId : Nat := 0
  resolves : Nat := 0
  connects : Nat := 0
  reads : Nat := 0
  /-- The number of bytes each write under way transmits. -/
  writes : List Nat := []
  shutdowns : Nat := 0
  /-- History of the connection, which nothing reads: the lines passed to `send` since it was
      established, what was written on it, and whether a write on it failed. -/
  sent : List String := []
  written : List Char := []
  writeFailed : Bool := false

structure St extends Client where
  uris : Nat → Uri
  queue : List Handler := []
  /-- Newest first. -/
  log : List Out := []
  /-- The steady clock, in nanoseconds. -/
  now : Nat := 0
  /-- The pool manager has a client. -/
  started : Bool := false
  stopping : Bool := false
  /-- The pool manager's reconnect timer is armed. -/
  reconnectPending : Bool := false
  /-- A handler stopped in this way; nothing runs any more. -/
  crashed : Option Stop := none

/-- What the client is given: the JSON library, the build's name, its settings. -/
structure Env where
  /-- `Reader::parse`; it can also throw (on too deep a nesting). -/
  parse : List Char → Except StdException (Option Json)
  writeString : Json → String
  projectNameWithVersion : String
  workTimeout : Nat
  responseTimeout : Nat

namespace St

def isPendingState (s : St) : Bool := s.connecting || s.disconnecting

def isConnected (s : St) : Bool := s.connected && !s.isPendingState

def isSubscribed (s : St) : Bool := s.session.any (·.subscribed)

def isAuthorized (s : St) : Bool := s.session.any (·.authorized)

def updateUri (s : St) (a : Nat) (f : Uri → Uri) : St :=
  { s with uris := fun b => if b = a then f (s.uris a) else s.uris b }

end St

/-! ## Primitive steps -/

abbrev M := Prog St Stop

def getConn : M Uri := do
  let s ← get
  match s.conn with
  | none => throw .nullConn
  | some a => pure (s.uris a)

def modifyConn (f : Uri → Uri) : M Unit := do
  let s ← get
  match s.conn with
  | none => throw .nullConn
  | some a => modify fun s => s.updateUri a f

@[simp] theorem wp_getConn {Q : Uri → St → Prop} {X : Stop → St → Prop} {s : St} :
    Prog.wp getConn Q X s ↔ match s.conn with
      | none => X .nullConn s
      | some a => Q (s.uris a) s := by
  simp only [getConn, Prog.wp_bind, Prog.wp_get]
  cases s.conn <;> rfl

@[simp] theorem wp_modifyConn {f : Uri → Uri} {Q : Unit → St → Prop} {X : Stop → St → Prop} {s : St} :
    Prog.wp (modifyConn f) Q X s ↔ match s.conn with
      | none => X .nullConn s
      | some a => Q () (s.updateUri a f) := by
  simp only [modifyConn, Prog.wp_bind, Prog.wp_get]
  cases s.conn <;> rfl

def onSession {α : Type} (m : Prog Session Stop α) : M α := do
  let s ← get
  match s.session with
  | none => throw .nullSession
  | some session => zoom (fun _ => session) (fun x s => { s with session := some x }) m

def post (h : Handler) : M Unit := modify fun s => { s with queue := s.queue ++ [h] }

def emit (o : Out) : M Unit := modify fun s => { s with log := o :: s.log }

def enqueueResponsePlea : M Unit := modify fun s => { s with pleas := s.pleas.enqueue s.now }

def dequeueResponsePlea : M Nat := do
  let s ← get
  modify fun s => { s with pleas := (s.pleas.dequeue s.now).2 }
  return (s.pleas.dequeue s.now).1

theorem wp_dequeueResponsePlea {Q : Nat → St → Prop} {X : Stop → St → Prop} {s : St} :
    Prog.wp dequeueResponsePlea Q X s ↔
      Q (s.pleas.dequeue s.now).1 { s with pleas := (s.pleas.dequeue s.now).2 } := by
  simp only [dequeueResponsePlea, Prog.wp_bind, Prog.wp_get, Prog.wp_modify, Prog.wp_pure]

def clearResponsePleas : M Unit := modify fun s => { s with pleas := Pleas.clear s.now }

def popEndpoint : M Unit := do
  let s ← get
  match s.endpoints with
  | [] => throw .emptyEndpoints
  | _ :: rest => modify fun s => { s with endpoints := rest }

def stream : M Unit := do
  let u ← getConn
  let s ← get
  when ((if u.secure then s.securesocket else s.socket) = false) (throw .nullSocket)

def sendSocketData : M Unit := do
  let s ← get
  if !s.isConnected || s.txQueue.isEmpty then
    modify fun s => { s with sendBuffer := [], txQueue := [], txPending := false }
  else
    modify fun s => { s with
      sendBuffer := s.sendBuffer ++ s.txQueue.flatMap fun line => line.toList ++ ['\n']
      txQueue := [] }
    stream
    modify fun s => { s with writes := s.writes ++ [s.sendBuffer.length] }

def send (E : Env) (jReq : Json) : M Unit := do
  modify fun s => { s with txQueue := s.txQueue ++ [E.writeString jReq], sent := s.sent ++ [E.writeString jReq] }
  let s ← get
  when (!s.txPending) do
    modify fun s => { s with txPending := true }
    sendSocketData

def recvSocketData : M Unit := do
  stream
  modify fun s => { s with reads := s.reads + 1 }

end CoreMiner.Stratum
