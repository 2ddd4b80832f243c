/-
  CoreMiner.Getwork.Client — the client that polls a node for work over HTTP
  (`XcbGetworkClient.cpp`).

  Every request opens the socket anew: `begin_connect`, `handle_connect`, `handle_write`,
  `handle_read` hand over to each other, one request at a time, and the requests that come
  in the meantime wait in `m_txQueue`. The reply to a getwork request arms the timer that
  sends the next one.

  As in `Stratum.State` one thread runs the handlers in posting order, a completion joins the
  queue, `log` records the callbacks, and a null pointer that is followed is a `Stop`. A
  queued line is the request it was written from; the JSON library reads back what it wrote.
  `disconnect` ends the client: its owner releases the URI and takes a new client.
-/

import CoreMiner.Stratum.State

namespace CoreMiner.Getwork

open DevCore EthCore Lib
open Prog (when)
open Stratum (Stop raise Uri)

structure Env where
  /-- `Reader::parse`; it can also throw (on too deep a nesting). -/
  parse : List Char → Except StdException (Option Json)
  writeString : Json → String
  /-- In seconds. -/
  worktimeout : Nat
  /-- In milliseconds. -/
  farmRecheckPeriod : Nat

/-! ## Requests -/

inductive Request where
  | getWork
  | submitHashrate (rate : UInt64) (id : String)
  | submitSolution (solution : Solution)

namespace Request

def solutionId (solution : Solution) : Nat := (40 + solution.midx) % 2 ^ 32

def json : Request → Json
  | getWork => .obj [("id", .int 1), ("jsonrpc", .str "2.0"), ("method", .str "xcb_getWork"), ("params", .arr [])]
  | submitHashrate rate id => .obj [("id", .int 9), ("jsonrpc", .str "2.0"), ("method", .str "xcb_submitHashrate"),
      ("params", .arr [.str (toHex rate .add 16), .str id])]
  | submitSolution solution => .obj [("id", .int (solutionId solution)), ("jsonrpc", .str "2.0"),
      ("method", .str "xcb_submitWork"),
      ("params", .arr [.str ("0x" ++ toHex solution.nonce .dontAdd 16),
        .str ("0x" ++ solution.work.header.hex .dontAdd),
        .str ("0x" ++ solution.mixHash.hex .dontAdd)])]

def isGetWork : Request → Bool
  | getWork => true
  | _ => false

end Request

def httpRequest (u : Uri) (line : String) : String :=
  "POST " ++ (if u.path = "" then "/" else u.path) ++ " HTTP/1.0\r\n" ++ "Host: " ++ u.host ++ "\r\n" ++
    "Content-Type: application/json" ++ "\r\n" ++ "Content-Length: " ++ toString line.length ++ "\r\n" ++
    "Connection: close\r\n\r\n" ++ line

/-! ## The state -/

inductive Failure where
  | aborted
  | other
  deriving DecidableEq, Repr

inductive Handler where
  | handleResolve (endpoints : Option (List Nat))
  | handleConnect (ec : Option Failure)
  | handleWrite (ec : Option Failure)
  /-- The end of the stream is no error. -/
  | handleRead (data : Except Failure (List Char))
  | getworkTimerElapsed (aborted : Bool)

inductive Out where
  | onConnected
  | onDisconnected
  | onWorkReceived (wp : WorkPackage)
  | onSolutionAccepted (delay miner : Nat) (stale : Bool)
  | onSolutionRejected (delay miner : Nat)
  deriving DecidableEq

structure St where
  conn : Option Uri
  /-- `m_session` is not null. -/
  session : Bool := false
  connected : Bool := false
  connecting : Bool := false
  txPending : Bool := false
  txQueue : List Request := []
  pending : Option Request := none
  pendingTstamp : Nat := 0
  request : List Char := []
  current : WorkPackage := {}
  currentTstamp : Nat := 0
  /-- Nothing initialises it. -/
  solutionSubmittedMaxId : Nat
  endpoints : List Nat := []
  isOpen : Bool := false
  /-- When `m_getwork_timer` expires. -/
  timer : Option Nat := none
  resolves : Nat := 0
  connects : Nat := 0
  writes : Nat := 0
  reads : Nat := 0
  queue : List Handler := []
  /-- Newest first. -/
  log : List Out := []
  /-- The steady clock, in nanoseconds. -/
  now : Nat := 0
  crashed : Option Stop := none

abbrev M := Prog St Stop

def getConn : M Uri := do
  let s ← get
  match s.conn with
  | none => throw .nullConn
  | some u => pure u

def emit (o : Out) : M Unit := modify fun s => { s with log := o :: s.log }

def popEndpoint : M Unit := do
  let s ← get
  match s.endpoints with
  | [] => throw .emptyEndpoints
  | _ :: rest => modify fun s => { s with endpoints := rest }

def cancelTimer : M Unit := modify fun s => { s with
  queue := if s.timer.isSome then s.queue ++ [.getworkTimerElapsed true] else s.queue
  timer := none }

def armTimer (ns : Nat) : M Unit := do
  cancelTimer
  modify fun s => { s with timer := some (s.now + ns) }

/-- Closing the socket aborts what is under way on it. -/
def closeSocket : M Unit := modify fun s => { s with
  queue := s.queue ++ List.replicate s.connects (.handleConnect (some .aborted)) ++
    List.replicate s.writes (.handleWrite (some .aborted)) ++ List.replicate s.reads (.handleRead (.error .aborted))
  connects := 0
  writes := 0
  reads := 0
  isOpen := false }

/-! ## Connecting -/

def disconnect : M Unit := do
  let s ← get
  modify fun s => { s with connected := false }
  when s.session do
    let _ ← getConn
  modify fun s => { s with session := false, connecting := false, txPending := false }
  cancelTimer
  modify fun s => { s with txQueue := [], request := [] }
  emit .onDisconnected
  modify fun s => { s with conn := none }

def beginConnect : M Unit := do
  let s ← get
  if s.endpoints.isEmpty then
    let _ ← getConn
    disconnect
  else
    modify fun s => { s with isOpen := true, connects := s.connects + 1 }

def send (req : Request) : M Unit := do
  modify fun s => { s with txQueue := s.txQueue ++ [req] }
  let s ← get
  when (!s.txPending) do
    modify fun s => { s with txPending := true }
    beginConnect

def connect : M Unit := do
  let s ← get
  when (!s.connecting) do
    modify fun s => { s with connecting := true }
    cancelTimer
    modify fun s => { s with endpoints := [] }
    let u ← getConn
    if u.hostNameType = .dns ∨ u.hostNameType = .basic then
      -- The resolver is replaced, which cancels what the old one was doing.
      modify fun s => { s with queue := s.queue ++ List.replicate s.resolves (.handleResolve none), resolves := 1 }
    else
      modify fun s => { s with endpoints := [0] }
      send .getWork

def handleResolve (endpoints : Option (List Nat)) : M Unit :=
  match endpoints with
  | some l => do
    modify fun s => { s with endpoints := s.endpoints ++ l }
    send .getWork
  | none => do
    let _ ← getConn
    disconnect

def tryNext : M Unit := do
  let _ ← getConn
  popEndpoint
  beginConnect

section

variable (E : Env)

def handleConnect (ec : Option Failure) : M Unit := do
  let s ← get
  if ec = none ∧ s.isOpen then
    when s.connecting do
      modify fun s => { s with connected := true, session := true, connecting := false }
      emit .onConnected
      modify fun s => { s with currentTstamp := s.now }
    match s.txQueue with
    | [] => modify fun s => { s with txPending := false }
    | req :: rest =>
      modify fun s => { s with txQueue := rest, pending := some req, pendingTstamp := s.now }
      let u ← getConn
      modify fun s => { s with
        request := s.request ++ (httpRequest u (E.writeString req.json)).toList
        writes := s.writes + 1 }
  else
    when (ec ≠ some .aborted) tryNext

def handleWrite (ec : Option Failure) : M Unit :=
  match ec with
  | none => modify fun s => { s with request := [], reads := s.reads + 1 }
  | some ec => when (ec ≠ .aborted) tryNext

/-! ## Replies -/

def processError (jRes : Json) : Except StdException String := do
  let error ← jRes.at_ "error"
  if !error.isNull then
    if error.isConvertibleToString then error.asString
    else
      match error with
      | .arr l => l.foldlM (fun text v => do return text ++ (← v.asString) ++ " ") ""
      | .obj l => l.foldlM (fun text m => do return text ++ m.1 ++ ":" ++ (← m.2.asString) ++ " ") ""
      | _ => return ""
  else return "Unknown error"

def workOf (jPrm : Json) : Except StdException WorkPackage := do
  let header ← h256 (← jPrm.strIdx 0)
  let seed ← h256 (← jPrm.strIdx 1)
  let boundary ← h256 (← jPrm.strIdx 2)
  return { header, seed, boundary, job := header.hex .dontAdd }

/-- The id of the pending request; the one of the response is not looked at. -/
def pendingId (pending : Option Request) : Except StdException Nat := do
  let id ← ((pending.map Request.json).getD .null).get "id" (.int 0)
  id.asUInt

def second : Nat := 1000000000

def millisecond : Nat := 1000000

/-- `m_onWorkReceived`: as in `Stratum.Receive`, the manager divides by the boundary. -/
def onWorkReceived (wp : WorkPackage) : M Unit := do
  emit (.onWorkReceived wp)
  when (¬ wp.HasBoundary) (throw (.exception .runtimeError))

def getWorkReply (jRes : Json) (isSuccess : Bool) : M Unit := do
  if !isSuccess then
    let _ ← getConn
    armTimer (30 * second)
  else if !(← raise (jRes.isMember "result")) then
    let _ ← getConn
  else
    let newWp ← raise (do workOf (← jRes.get "result" .null))
    let s ← get
    when (s.current.header ≠ newWp.header) do
      modify fun s => { s with current := newWp, currentTstamp := s.now }
      onWorkReceived newWp
    armTimer (E.farmRecheckPeriod * millisecond)

def solutionReply (jRes : Json) (isSuccess : Bool) (id : Nat) : M Unit := do
  let result ← raise (jRes.at_ "result")
  let s ← get
  let delay := (s.now - s.pendingTstamp) / millisecond
  if (if isSuccess && result.isConvertibleToBool then result.asBool else isSuccess) then
    emit (.onSolutionAccepted delay (id - 40) false)
  else emit (.onSolutionRejected delay (id - 40))

def processResponse (jRes : Json) : M Unit := do
  if !(← raise (jRes.isMember "id")) then
    let _ ← getConn
  else
    let s ← get
    let id ← raise (pendingId s.pending)
    let isSuccess := (← raise (jRes.get "error" .null)).empty
    when (!isSuccess) do
      let _ ← raise (processError jRes)
    if id = 0 ∨ id = 1 then getWorkReply E jRes isSuccess
    else if id = 9 then pure ()
    else when (40 ≤ id ∧ id ≤ s.solutionSubmittedMaxId) (solutionReply jRes isSuccess id)

def splitCrlf : List Char → List (List Char)
  | '\r' :: '\n' :: rest => [] :: splitCrlf rest
  | c :: rest =>
    match splitCrlf rest with
    | [] => [[c]]
    | line :: lines => (c :: line) :: lines
  | [] => [[]]

def statusOk (line : List Char) : Bool :=
  line.take 7 = "HTTP/1.".toList && line.contains ' ' && ((line.dropWhile (· ≠ ' ')).drop 1).take 3 = "200".toList

/-- The lines of the body, one iteration of the loop for each line end: an empty line ends the
    headers, and is followed by the rest of the message where that has no line end. -/
def bodyLines (isHeader : Bool) : List (List Char) → List (List Char)
  | line :: rest :: more =>
    if line.isEmpty then
      if more.isEmpty then [rest.filter (· ≠ '\n')] else bodyLines false (rest :: more)
    else if isHeader then bodyLines isHeader (rest :: more)
    else line :: bodyLines isHeader (rest :: more)
  | _ => []

/-- What is to be parsed of a message; `none` if its status line is no good. -/
def replyLines (rxMessage : List Char) : Option (List (List Char)) :=
  match splitCrlf rxMessage with
  | line :: rest :: more =>
    if line.isEmpty || statusOk line then some (bodyLines true (line :: rest :: more)) else none
  | _ => some []

def processLine (line : List Char) : M Unit := do
  match ← raise (E.parse line) with
  | some jRes => processResponse E jRes
  | none => pure ()

def endRequest : M Unit := do
  let s ← get
  if !s.txQueue.isEmpty then beginConnect else modify fun s => { s with txPending := false }

def reject : M Unit := do
  let _ ← getConn
  disconnect

def handleRead (data : Except Failure (List Char)) : M Unit :=
  match data with
  | .ok rxMessage => do
    let s ← get
    when s.isOpen closeSocket
    if rxMessage.isEmpty then reject
    else
      match replyLines rxMessage with
      | none => reject
      | some lines =>
        lines.forM (processLine E)
        endRequest
  | .error ec => when (ec ≠ .aborted) reject

/-! ## Submissions and the timer -/

def submitHashrate (rate : UInt64) (id : String) : M Unit := do
  let s ← get
  when s.session (send (.submitHashrate rate id))

def submitSolution (solution : Solution) : M Unit := do
  let s ← get
  when s.session do
    modify fun s => { s with solutionSubmittedMaxId := max s.solutionSubmittedMaxId (Request.solutionId solution) }
    send (.submitSolution solution)

def getworkTimerElapsed (aborted : Bool) : M Unit :=
  when (!aborted) do
    let s ← get
    if E.worktimeout < (s.now - s.currentTstamp) / second then
      popEndpoint
      disconnect
    else send .getWork

/-! ## Runs -/

def runHandler : Handler → M Unit
  | .handleResolve endpoints => handleResolve endpoints
  | .handleConnect ec => handleConnect E ec
  | .handleWrite ec => handleWrite ec
  | .handleRead data => handleRead E data
  | .getworkTimerElapsed aborted => getworkTimerElapsed E aborted

inductive Ev where
  | run
  | resolved (endpoints : Option (List Nat))
  | connectCompletes (fails : Bool)
  | writeCompletes (fails : Bool)
  /-- `none`: an error other than the end of the stream. -/
  | readCompletes (data : Option (List Char))
  | timerExpires
  | advance (ns : Nat)
  /-- The pool manager's calls. -/
  | connect
  | disconnect
  | submitHashrate (rate : UInt64) (id : String)
  | submitSolution (solution : Solution)

def call (m : M Unit) (s : St) : St :=
  match m.exec s with
  | (.ok _, t) => t
  | (.error x, t) => { t with crashed := some x }

def St.push (s : St) (h : Handler) : St := { s with queue := s.queue ++ [h] }

def failure (fails : Bool) : Option Failure := if fails then some .other else none

def fire (s : St) : Ev → Option St
  | .run =>
    match s.queue with
    | [] => none
    | h :: queue => some (call (runHandler E h) { s with queue })
  | .resolved endpoints =>
    if 0 < s.resolves then some ({ s with resolves := s.resolves - 1 }.push (.handleResolve endpoints)) else none
  | .connectCompletes fails =>
    if 0 < s.connects then some ({ s with connects := s.connects - 1 }.push (.handleConnect (failure fails))) else none
  | .writeCompletes fails =>
    if 0 < s.writes then some ({ s with writes := s.writes - 1 }.push (.handleWrite (failure fails))) else none
  | .readCompletes data =>
    if 0 < s.reads then
      some ({ s with reads := s.reads - 1 }.push (.handleRead (data.elim (.error .other) .ok)))
    else none
  | .timerExpires =>
    match s.timer with
    | some t => if t ≤ s.now then some ({ s with timer := none }.push (.getworkTimerElapsed false)) else none
    | none => none
  | .advance ns => some { s with now := s.now + ns }
  | .connect => if s.connected then none else some (call connect s)
  | .disconnect => some (call disconnect s)
  | .submitHashrate rate id => if s.connected then some (call (submitHashrate rate id) s) else none
  | .submitSolution solution => if s.connected then some (call (submitSolution solution) s) else none

def step (s : St) (e : Ev) : Option St := if s.crashed.isSome then none else fire E s e

def init (u : Uri) (maxId : Nat) : St := { conn := some u, solutionSubmittedMaxId := maxId }

end

end CoreMiner.Getwork
