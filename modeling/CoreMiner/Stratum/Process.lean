/-
  CoreMiner.Stratum.Process — what the client does with one message of the pool
  (`XcbStratumClient.cpp`: `processError`, `processResponse`).

  `retrieve` reads the essential values; `response` handles a reply to a request of ours,
  by its id; `notification` handles the rest, once the stratum mode is confirmed. A part
  that ends the whole function returns `none` (or `false`). Messages to the user are left
  out. The members of an outgoing object are listed in the order the source sets them.
-/

import CoreMiner.Stratum.State

namespace CoreMiner.Stratum

open DevCore EthCore Lib
open Prog (when zoom)

variable (E : Env)

/-! ## Essential values -/

structure Header where
  rpcVer : Nat
  id : Nat
  isSuccess : Bool
  errReason : String
  method : String
  isNotification : Bool

def processError (j : Json) : Except StdException String := do
  let error ← j.get "error" .null
  if (← j.isMember "error") && !error.isNull then
    if error.isConvertibleToString then error.asString
    else match error with
      | .arr l => l.foldlM (fun text i => do return text ++ (← i.asString) ++ " ") ""
      | .obj l => l.foldlM (fun text m => do return text ++ m.1 ++ ":" ++ (← m.2.asString) ++ " ") ""
      | _ => .ok ""
  else .ok "Unknown error"

def retrieve (j : Json) : Except StdException Header := do
  let rpcVer := if ← j.isMember "jsonrpc" then 2 else 1
  let id ← (← j.get "id" (.int 0)).asUInt
  let isSuccess := (← j.get "error" .null).empty
  let errReason ← if isSuccess then .ok "" else processError j
  let method ← j.strKey "method" ""
  return { rpcVer, id, isSuccess, errReason, method, isNotification := method ≠ "" || id = 0 }

def asGetWork (h : Header) (j : Json) : M Header := do
  if h.isNotification && h.method = "" then
    let u ← getConn
    let result ← raise (j.at_ "result")
    return if u.stratumMode = ETHPROXY && result.isArray then { h with method := "mining.notify" } else h
  else return h

def invalid (h : Header) (j : Json) : Except StdException Bool := do
  let jsonrpc ← j.at_ "jsonrpc"
  let params ← j.at_ "params"
  let result ← j.at_ "result"
  return (h.rpcVer = 2 && !jsonrpc.isStr "2.0") || (h.isNotification && params.empty && result.empty)

/-! ## Replies to our requests -/

def startSession : M Unit := do
  modify fun s => { s with
    session := some { start := s.now, lastTxStamp := s.now }
    currentTimestamp := s.now }
  emit .onConnected

/-- A login the pool did not accept: with an explicit scheme the connection is of no use. -/
def refuse : M Unit := do
  let u ← getConn
  when u.stratumModeConfirmed (modifyConn Uri.markUnrecoverable)
  post .disconnect

def authorizeParams (u : Uri) : Json := .arr [.str (u.userDotWorker ++ u.path), .str u.pass]

def acceptsHello (result : Json) : Except StdException Bool := do
  if !result.isConvertibleToObject then return false
  if !(← result.isMember "proto") then return false
  if (← (← result.at_ "proto").asString) ≠ "CoreStratum/2.0.0" then return false
  return (← result.isMember "encoding") && (← result.isMember "resume") && (← result.isMember "timeout") &&
    (← result.isMember "maxerrors") && (← result.isMember "node")

def acceptsSubscribe (result : Json) : Except StdException Bool := do
  if !result.isArray then return false
  let first ← result.getIdx 0 .null
  if !first.isArray || first.size ≠ 3 then return false
  return (← first.strIdx 2) = "CoreStratum/1.0.0"

/-- Mode CORESTRATUM2; the request to send next, or `none` when the login failed. -/
def loginCoreStratum2 (result : Json) : M (Option Json) := do
  if ← raise (acceptsHello result) then
    modifyConn (·.setStratumMode CORESTRATUM2 true)
    startSession
    enqueueResponsePlea
    return some (.obj [("id", .int 2), ("method", .str "mining.subscribe")])
  else
    refuse
    return none

def loginCoreStratum (result : Json) : M (Option Json) := do
  if ← raise (acceptsSubscribe result) then
    modifyConn (·.setStratumMode CORESTRATUM true)
    startSession
    onSession (modify fun x => { x with subscribed := true })
    send E (.obj [("id", .int 2), ("method", .str "mining.extranonce.subscribe"), ("params", .arr [])])
    let enonce ← raise (result.strIdx 1)
    when (enonce ≠ "") (onSession (processExtranonce enonce))
    modify fun s => { s with authpending := true }
    let u ← getConn
    enqueueResponsePlea
    return some (.obj [("id", .int 3), ("method", .str "mining.authorize"), ("params", authorizeParams u)])
  else
    refuse
    return none

def loginEthProxy (isSuccess : Bool) : M (Option Json) := do
  if isSuccess then
    modifyConn (·.setStratumMode ETHPROXY true)
    startSession
    onSession (modify fun x => { x with subscribed := true, authorized := true })
    return some (.obj [("id", .int 5), ("method", .str "eth_getWork"), ("params", .arr [])])
  else
    refuse
    return none

def loginStratum (isSuccess : Bool) : M (Option Json) := do
  if isSuccess then
    modifyConn (·.setStratumMode STRATUM true)
    startSession
    onSession (modify fun x => { x with subscribed := true })
    modify fun s => { s with authpending := true }
    let u ← getConn
    enqueueResponsePlea
    return some (.obj [("id", .int 3), ("jsonrpc", .str "2.0"), ("method", .str "mining.authorize"),
      ("params", authorizeParams u)])
  else
    refuse
    return none

def loginFor (mode : Nat) (h : Header) (result : Json) : M (Option Json) :=
  match mode with
  | 3 => loginCoreStratum2 result
  | 2 => loginCoreStratum E result
  | 1 => loginEthProxy h.isSuccess
  | 0 => loginStratum h.isSuccess
  | _ => pure (some .null)

def loginReply (h : Header) (result : Json) : M Unit := do
  let _ ← dequeueResponsePlea
  let u ← getConn
  if !h.isSuccess && !u.stratumModeConfirmed then post .disconnect
  else
    match ← loginFor E u.stratumMode h result with
    | none => pure ()
    | some jReq => send E jReq

def abandon : M Unit := do
  modifyConn Uri.markUnrecoverable
  post .disconnect

def textOf : Json → Option String
  | .str s => if s = "" then none else some s
  | _ => none

def subscribeReply (result : Json) : M Unit := do
  let u ← getConn
  when (u.stratumMode = CORESTRATUM2) do
    let _ ← dequeueResponsePlea
    match textOf result with
    | none => abandon
    | some sessionId =>
      onSession (modify fun x => { x with sessionId := sessionId, subscribed := true })
      modify fun s => { s with authpending := true }
      let u ← getConn
      enqueueResponsePlea
      send E (.obj [("id", .int 3), ("method", .str "mining.authorize"), ("params", authorizeParams u)])

def verdict (h : Header) (result : Json) : Bool := if h.isSuccess && result.isBool then result.asBool else h.isSuccess

def authorizeReply (h : Header) (result : Json) : M Unit := do
  let _ ← dequeueResponsePlea
  modify fun s => { s with authpending := false }
  onSession (modify fun x => { x with authorized := verdict h result })
  let s ← get
  when (!s.isAuthorized) abandon

def authorizeReply2 (h : Header) (result : Json) : M Unit := do
  let _ ← dequeueResponsePlea
  match if h.isSuccess then textOf result else none with
  | none => abandon
  | some workerId =>
    modify fun s => { s with authpending := false }
    onSession (modify fun x => { x with authorized := true, workerId := workerId })

def submitReply (h : Header) (result : Json) : M Unit := do
  let delay ← dequeueResponsePlea
  if verdict h result then emit (.onSolutionAccepted delay (h.id - 40) false)
  else emit (.onSolutionRejected delay (h.id - 40))

def isStale (h : Header) (j : Json) : Except StdException Bool := do
  if h.isSuccess then return false
  let code ← (← j.at_ "error").strKey "code" ""
  return code.toList.take 1 = ['2']

/-- Ids from 40 on in mode CORESTRATUM2: an error 2xx is an accepted stale share. -/
def submitReply2 (h : Header) (j : Json) : M Unit := do
  let delay ← dequeueResponsePlea
  let stale ← raise (isStale h j)
  if h.isSuccess || stale then emit (.onSolutionAccepted delay (h.id - 40) stale)
  else emit (.onSolutionRejected delay (h.id - 40))

/-- Id 999, with which some pools answer a failed subscription or authorization. -/
def strayReply (h : Header) : M Unit := do
  when (!h.isSuccess) do
    let u ← getConn
    let s ← get
    when (!u.stratumModeConfirmed || !s.isSubscribed || !s.isAuthorized) (post .disconnect)

def byMode (before2 corestratum2 : M Unit) : M Unit := do
  let u ← getConn
  if u.stratumMode ≠ CORESTRATUM2 then before2 else corestratum2

def getWorkReply (h : Header) (result : Json) : M (Option Header) := do
  let u ← getConn
  return if u.stratumMode = ETHPROXY && result.isArray
    then some { h with method := "mining.notify", isNotification := true }
    else none

/-- The other replies, by id. Ids nothing was asked with, and 9, change nothing. -/
def reply (h : Header) (j result : Json) : M Unit := do
  let s ← get
  if h.id = 1 then loginReply E h result
  else if h.id = 2 then subscribeReply E result
  else if h.id = 3 then byMode (authorizeReply h result) (authorizeReply2 h result)
  else if 40 ≤ h.id ∧ h.id ≤ s.solutionSubmittedMaxId then byMode (submitReply h result) (submitReply2 h j)
  else when (h.id = 999) (strayReply h)

def response (h : Header) (j : Json) : M (Option Header) := do
  let result ← raise (j.get "result" .null)
  if h.id = 5 then getWorkReply h result
  else
    reply E h j result
    return none

/-! ## Notifications -/

def onCurrent {α : Type} (m : Prog WorkPackage Stop α) : M α :=
  zoom (·.current) (fun w s => { s with current := w }) m

def signalJob : M Unit := modify fun s => { s with currentTimestamp := s.now, newjobprocessed := true }

/-- Whether an eth-proxy job is in the member `result`, a workaround for one pool. -/
def jobInResult (mode : Nat) (j : Json) : Except StdException Bool :=
  if mode = ETHPROXY then j.isMember "result" else .ok false

/-- `mining.notify` in the modes before CORESTRATUM2. Without a subscription, or after
    another job of this transmission, it is discarded. -/
def notify (u : Uri) (j : Json) : M Unit := do
  let s ← get
  match s.session with
  | none => pure ()
  | some session =>
    when (session.subscribed && !s.newjobprocessed) do
      let inResult ← raise (jobInResult u.stratumMode j)
      let jPrm ← raise (j.get (if inResult then "result" else "params") .null)
      when (jPrm.isArray && !jPrm.empty) do
        let isNew ← onCurrent (legacyJob u.stratumMode session jPrm (if inResult then 0 else 1))
        when isNew signalJob

def notify2 (j : Json) : M Unit := do
  let s ← get
  match s.session with
  | none => pure ()
  | some session =>
    when session.firstMiningSet do
      let params ← raise (j.at_ "params")
      when (params.isArray && params.size = 4) do
        onCurrent (coreStratum2Job session params)
        signalJob

def versionReply (h : Header) : Json :=
  .obj [("id", .int h.id), ("result", .str E.projectNameWithVersion),
    if h.rpcVer = 1 then ("error", .null) else ("jsonrpc", .str "2.0")]

def methodNotFound (h : Header) : Json :=
  .obj ((if h.rpcVer = 2 then [("jsonrpc", .str "2.0")] else []) ++
    [("id", .int h.id), ("error", .str "Method not found")])

def dispatch (u : Uri) (h : Header) (j : Json) : M Unit := do
  let jPrm ← raise (j.get "params" .null)
  if h.method = "mining.notify" then
    if u.stratumMode ≠ CORESTRATUM2 then notify u j else notify2 j
  else if h.method = "mining.set_difficulty" ∧ u.stratumMode = CORESTRATUM then
    when jPrm.isArray (onSession setDifficulty)
  else if h.method = "mining.set_extranonce" ∧ u.stratumMode = CORESTRATUM then
    when jPrm.isArray do
      let enonce ← raise (jPrm.strIdx 0)
      when (enonce ≠ "") (onSession (processExtranonce enonce))
  else if h.method = "mining.set" ∧ u.stratumMode = CORESTRATUM2 then
    when (jPrm.isObject && !jPrm.empty) (onSession (miningSet jPrm))
  else if h.method = "mining.bye" ∧ u.stratumMode = CORESTRATUM2 then post .disconnect
  else if h.method = "client.get_version" then send E (versionReply E h)
  else send E (methodNotFound h)

/-- A notification or a request of the pool counts once the mode is confirmed. -/
def notification (h : Header) (j : Json) : M Unit := do
  let u ← getConn
  when u.stratumModeConfirmed (dispatch E u h j)

def handle (h : Header) (j : Json) : M Unit := do
  if ← raise (invalid h j) then post .disconnect
  else if h.isNotification then notification E h j
  else match ← response E h j with
    | none => pure ()
    | some h => notification E h j

def processResponse (j : Json) : M Unit := do
  let h ← raise (retrieve j)
  let h ← asGetWork h j
  handle E h j

end CoreMiner.Stratum
