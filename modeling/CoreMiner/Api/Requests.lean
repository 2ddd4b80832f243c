/-
  CoreMiner.Api.Requests — one request (`ApiServer.cpp`: `getRequestValue` and its overloads,
  `checkApiWriteAccess`, `parseRequestId`, `ApiConnection::processRequest`).

  `processRequest` reads the request member by member and writes the response piecemeal; a
  check that fails writes an error and returns. It is a program on the response, on the
  session's authentication flag and on the node. The overloads of `getRequestValue` differ in
  the type they check and the conversion they make; the one for `uint64_t` checks no type and
  catches the conversion's exception, and writes the code of that error into the request.
-/

import CoreMiner.Api.Stats

namespace CoreMiner.DevCore.Json

/-- The value of `jResponse["error"]`, which the access creates. -/
def errorOf (j : Json) : Json := (j.member "error").getD .null

def setError (j : Json) (key : String) (v : Json) : Json := j.set "error" (j.errorOf.set key v)

def withError (j : Json) (code : Int) (message : String) : Json :=
  (j.setError "code" (.int code)).setError "message" (.str message)

end CoreMiner.DevCore.Json

namespace CoreMiner.Api

open DevCore EthCore Lib
open Prog (when)
open Pools (Manager)

structure Config where
  readonly : Bool
  password : String

structure Call where
  node : Node
  isAuthenticated : Bool
  jResponse : Json := .null

abbrev R := Prog Call Stop

variable (E : Env) (C : Config) (m : Moment)

def raise {σ α : Type} : Except Stop α → Prog σ Stop α
  | .ok a => pure a
  | .error x => throw x

/-! ## The response -/

def put (key : String) (v : Json) : R Unit := modify fun c => { c with jResponse := c.jResponse.set key v }

def error (code : Int) (message : String) : R Unit :=
  modify fun c => { c with jResponse := c.jResponse.withError code message }

/-- The overloads of `getRequestValue` but for the one that reads a `uint64_t`: `none` is a
    return of `false`, and a missing optional member leaves `refValue`. -/
def requestValue {α : Type} (isType : Json → Bool) (as : Json → Except StdException α) (membername : String)
    (refValue : α) (jRequest : Json) (optional : Bool) : R (Option α) := do
  if !(← raise (E.std (jRequest.isMember membername))) then
    if optional then return some refValue
    error (-32602) ("Missing '" ++ membername ++ "'")
    return none
  let value ← raise (E.std (jRequest.at_ membername))
  if !isType value then
    error (-32602) ("Invalid type of value '" ++ membername ++ "'")
    return none
  if value.empty then
    error (-32602) ("Empty '" ++ membername ++ "'")
    return none
  some <$> raise (E.std (as value))

def getRequestBool := requestValue E Json.isBool fun v => .ok v.asBool

def getRequestUInt := requestValue E Json.isUInt Json.asUInt

def getRequestObject := requestValue E Json.isObject fun v => .ok v

def getRequestString := requestValue E Json.isString Json.asString

def getRequestUInt64 (membername : String) (refValue : UInt64) (jRequest : Json) (optional : Bool) :
    R (Option UInt64) := do
  if !(← raise (E.std (jRequest.isMember membername))) then
    if optional then return some refValue
    error (-32602) ("Missing '" ++ membername ++ "'")
    return none
  let value ← raise (E.std (jRequest.at_ membername))
  if value.empty then
    error (-32602) ("Empty '" ++ membername ++ "'")
    return none
  match value.asUInt64 with
  | .ok n => return some n
  | .error _ =>
    -- The code goes to `jRequest["error"]["code"]`, which nobody reads.
    modify fun c => { c with
      jResponse := c.jResponse.setError "message" (.str ("Bad value in '" ++ membername ++ "'")) }
    return none

def checkApiWriteAccess (isReadOnly : Bool) : R Bool := do
  when isReadOnly (error (-32601) "Method not available")
  return !isReadOnly

def parseRequestId (jRequest : Json) : R Bool := do
  let isMember ← raise (E.std (jRequest.isMember "id"))
  let id ← raise (E.std (jRequest.at_ "id"))
  if !isMember || id.empty then
    put "id" .null
    error (-32600) "Invalid Request (missing or empty id)"
    return false
  if id.isUInt then
    put "id" (.int (← raise (E.std id.asUInt)))
    return true
  if id.isString then
    put "id" (.str (← raise (E.std id.asString)))
    return true
  put "id" .null
  error (-32600) "Invalid Request (id has invalid type)"
  return false

/-! ## Authentication -/

def maxLength : Nat := 500

def passwordCopy (s : String) : List Char := s.toList.take maxLength ++ List.replicate (maxLength - s.length) '\x00'

def passwordResult (psw password : String) : Nat :=
  (List.zipWith (fun a b : Char => a.toNat ^^^ b.toNat) (passwordCopy psw) (passwordCopy password)).foldl (· ||| ·) 0

def authorize (jRequest : Json) : R Unit := do
  modify fun c => { c with isAuthenticated := false }
  let some jRequestParams ← getRequestObject E "params" .null jRequest false | return
  let some psw ← getRequestString E "psw" "" jRequestParams false | return
  if passwordResult psw C.password = 0 then modify fun c => { c with isAuthenticated := true }
  else error (-401) "Invalid password"

/-! ## Methods -/

inductive Method where
  | minerGetstat1
  | minerGetstatdetail
  | minerShuffle
  | minerPing
  | minerRestart
  | minerReboot
  | minerGetconnections
  | minerAddconnection
  | minerSetactiveconnection
  | minerRemoveconnection
  | minerGetscramblerinfo
  | minerSetscramblerinfo
  | minerPausegpu
  | minerSetverbosity
  deriving DecidableEq, Repr

namespace Method

def text : Method → String
  | minerGetstat1 => "miner_getstat1"
  | minerGetstatdetail => "miner_getstatdetail"
  | minerShuffle => "miner_shuffle"
  | minerPing => "miner_ping"
  | minerRestart => "miner_restart"
  | minerReboot => "miner_reboot"
  | minerGetconnections => "miner_getconnections"
  | minerAddconnection => "miner_addconnection"
  | minerSetactiveconnection => "miner_setactiveconnection"
  | minerRemoveconnection => "miner_removeconnection"
  | minerGetscramblerinfo => "miner_getscramblerinfo"
  | minerSetscramblerinfo => "miner_setscramblerinfo"
  | minerPausegpu => "miner_pausegpu"
  | minerSetverbosity => "miner_setverbosity"

/-- In the order in which `processRequest` compares them. -/
def all : List Method := [minerGetstat1, minerGetstatdetail, minerShuffle, minerPing, minerRestart, minerReboot,
  minerGetconnections, minerAddconnection, minerSetactiveconnection, minerRemoveconnection, minerGetscramblerinfo,
  minerSetscramblerinfo, minerPausegpu, minerSetverbosity]

def ofText (s : String) : Option Method := all.find? fun x => x.text = s

end Method

def modifyNode (f : Node → Node) : R Unit := modify fun c => { c with node := f c.node }

def modifyFarm (f : Farm → Farm) : R Unit :=
  modifyNode fun n => { n with pools := { n.pools with farm := f n.pools.farm } }

def onPools {α : Type} (p : Pools.P α) : R (Except String α) := do
  let c ← get
  modifyNode fun n => { n with pools := (p.exec n.pools).2 }
  return (p.exec c.node.pools).1

def writing (body : R Unit) : R Unit := do
  if ← checkApiWriteAccess C.readonly then body

def withParams (jRequest : Json) (body : Json → R Unit) : R Unit := do
  let some jRequestParams ← getRequestObject E "params" .null jRequest false | return
  body jRequestParams

def minerShuffle : R Unit := writing C do
  put "result" (.bool true)
  modifyFarm (·.shuffle m.random)

def minerRestart : R Unit := writing C do
  put "result" (.bool true)
  modifyNode fun n => { n with restarts := n.restarts + 1 }

def minerReboot : R Unit := writing C do
  modifyNode fun n => { n with reboots := n.reboots ++ [["api_miner_reboot"]] }
  put "result" (.bool m.spawns)

def minerAddconnection (jRequest : Json) : R Unit := writing C <| withParams E jRequest fun jRequestParams => do
  let some sUri ← getRequestString E "uri" "" jRequestParams false | return
  match ← onPools (Pools.addConnection (E.newUri sUri)) with
  | .ok _ => put "result" (.bool true)
  | .error _ => error (-422) ("Bad URI : " ++ sUri)

def disconnectClient : R (Option String) := do
  let c ← get
  match c.node.client with
  | none => throw .undefined
  | some _ =>
    modifyNode fun n => { n with disconnects := n.disconnects + 1 }
    return m.disconnectThrows

/-- The end of `miner_setactiveconnection`, once the connection is named. -/
def activate (p : Pools.P Bool) : R Unit := do
  match ← onPools p with
  | .error what => error (-422) what
  | .ok disconnects =>
    let thrown ← if disconnects then disconnectClient m else pure none
    match thrown with
    | some what => error (-422) what
    | none => put "result" (.bool true)

def minerSetactiveconnection (jRequest : Json) : R Unit :=
  writing C <| withParams E jRequest fun jRequestParams => do
    if ← raise (E.std (jRequestParams.isMember "index")) then
      match ← getRequestUInt E "index" 0 jRequestParams false with
      | some index => activate m (Pools.setActiveConnection index)
      | none => error (-422) "Invalid index"
    else
      match ← getRequestString E "URI" "" jRequestParams false with
      | some uri => activate m (Pools.setActiveConnectionUri E.settings uri)
      | none => error (-422) "Invalid index"

def minerRemoveconnection (jRequest : Json) : R Unit := writing C <| withParams E jRequest fun jRequestParams => do
  let some index ← getRequestUInt E "index" 0 jRequestParams false | return
  match ← onPools (Pools.removeConnection index) with
  | .ok _ => put "result" (.bool true)
  | .error what => error (-422) what

/-- The new scrambler, or the farm's own one; `none` where `processRequest` returns. -/
def readNonce (jRequestParams : Json) (nonce : UInt64) : R (Option UInt64) := do
  if ← raise (E.std (jRequestParams.isMember "noncescrambler")) then
    let nonceHex ← raise (E.std (do (← jRequestParams.at_ "noncescrambler").asString))
    if nonceHex.toList.take 2 = ['0', 'x'] then
      match stoul nonceHex with
      | .ok nonce => return some nonce
      | .error _ =>
        error (-422) "Invalid nonce"
        return none
    else getRequestUInt64 E "noncescrambler" nonce jRequestParams false
  else return some nonce

def readWidth (jRequestParams : Json) (exp : Nat) : R (Option Nat) := do
  if ← raise (E.std (jRequestParams.isMember "segmentwidth")) then
    getRequestUInt E "segmentwidth" exp jRequestParams false
  else return some exp

def minerSetscramblerinfo (jRequest : Json) : R Unit := writing C <| withParams E jRequest fun jRequestParams => do
  let c ← get
  let some nonce ← readNonce E jRequestParams c.node.pools.farm.nonceScrambler | return
  let some exp ← readWidth E jRequestParams c.node.pools.farm.nonceSegmentWidth | return
  let anyValueProvided :=
    (jRequestParams.member "noncescrambler").isSome || (jRequestParams.member "segmentwidth").isSome
  if !anyValueProvided then error (-32602) "Missing parameters"
  else
    modifyFarm (·.setNonceScrambler nonce)
    modifyFarm (·.setNonceSegmentWidth (Farm.clampWidth exp))
    put "result" (.bool true)

def minerPausegpu (jRequest : Json) : R Unit := writing C <| withParams E jRequest fun jRequestParams => do
  let some index ← getRequestUInt E "index" 0 jRequestParams false | return
  let some pause ← getRequestBool E "pause" false jRequestParams false | return
  let c ← get
  if index < c.node.pools.farm.miners.length then
    modifyFarm fun f => { f with
      miners := f.miners.modify index fun x => if pause then x.pause .apiRequest else x.resume .apiRequest }
    put "result" (.bool true)
  else error (-422) "Index out of bounds"

def logNext : Nat := 512

def minerSetverbosity (jRequest : Json) : R Unit := writing C <| withParams E jRequest fun jRequestParams => do
  let some verbosity ← getRequestUInt E "verbosity" 0 jRequestParams false | return
  if logNext ≤ verbosity then error (-422) ("Verbosity out of bounds (0-" ++ toString (logNext - 1) ++ ")")
  else
    modifyNode fun n => { n with logOptions := verbosity }
    put "result" (.bool true)

def runMethod (jRequest : Json) : Method → R Unit
  | .minerGetstat1 => do
    let c ← get
    put "result" (← raise (getMinerStat1 E m c.node))
  | .minerGetstatdetail => do
    let c ← get
    put "result" (← raise (getMinerStatDetail E m c.node))
  | .minerShuffle => minerShuffle C m
  | .minerPing => put "result" (.str "pong")
  | .minerRestart => minerRestart C
  | .minerReboot => minerReboot C m
  | .minerGetconnections => do
    let c ← get
    put "result" (c.node.getConnectionsJson E)
  | .minerAddconnection => minerAddconnection E C jRequest
  | .minerSetactiveconnection => minerSetactiveconnection E C m jRequest
  | .minerRemoveconnection => minerRemoveconnection E C jRequest
  | .minerGetscramblerinfo => do
    let c ← get
    put "result" c.node.getNonceScramblerJson
  | .minerSetscramblerinfo => minerSetscramblerinfo E C jRequest
  | .minerPausegpu => minerPausegpu E C jRequest
  | .minerSetverbosity => minerSetverbosity E C jRequest

/-! ## The dispatcher -/

def readMethod (jRequest : Json) : R (Option String) := do
  let some jsonrpc ← getRequestString E "jsonrpc" "" jRequest false | return none
  if jsonrpc ≠ "2.0" then return none
  getRequestString E "method" "" jRequest false

def dispatch (jRequest : Json) (method : String) : R Unit :=
  match Method.ofText method with
  | some x => runMethod E C m jRequest x
  | none => error (-32601) "Method not found"

def processMethod (jRequest : Json) : R Unit := do
  match ← readMethod E jRequest with
  | none => error (-32600) "Invalid Request"
  | some method =>
    let c ← get
    if !c.isAuthenticated || method = "api_authorize" then
      if method ≠ "api_authorize" then error (-403) "Authorization needed"
      else authorize E C jRequest
    else dispatch E C m jRequest method

def processRequest (jRequest : Json) : R Unit := do
  put "jsonrpc" (.str "2.0")
  if ← parseRequestId E jRequest then processMethod E C m jRequest

/-! ## What is read -/

section readers

open Prog

variable {E C m} {σ α β : Type} {s : σ} {c : Call} {jRequest : Json}

@[simp] theorem raise_ok (a : α) : (raise (.ok a) : Prog σ Stop α) = pure a := rfl

@[simp] theorem raise_error (x : Stop) : (raise (.error x) : Prog σ Stop α) = throw x := rfl

@[simp] theorem std_ok (a : α) : E.std (.ok a) = .ok a := rfl

theorem find_of_isOpen (h : jRequest.isOpen = true) (key : String) : jRequest.find key = .ok (jRequest.member key) := by
  cases jRequest <;> first | rfl | cases h

theorem isMember_of_isOpen (h : jRequest.isOpen = true) (key : String) :
    jRequest.isMember key = .ok (jRequest.member key).isSome := by
  rw [Json.isMember, find_of_isOpen h]
  rfl

theorem at_of_isOpen (h : jRequest.isOpen = true) (key : String) :
    jRequest.at_ key = .ok ((jRequest.member key).getD .null) := by
  rw [Json.at_, Json.get, find_of_isOpen h]
  rfl

/-- The members of what is neither null nor an object cannot be asked for. -/
theorem isMember_of_not_isOpen (h : jRequest.isOpen = false) (key : String) :
    jRequest.isMember key = .error .logicError := by
  cases jRequest <;> first | rfl | cases h

theorem isOpen_of_isObject {j : Json} (h : j.isObject = true) : j.isOpen = true := by simp [Json.isOpen, h]

/-- The message of a reader that returns `false`. -/
def complaint (isType : Json → Bool) (membername : String) : Option Json → String
  | none => "Missing '" ++ membername ++ "'"
  | some v => if isType v then "Empty '" ++ membername ++ "'" else "Invalid type of value '" ++ membername ++ "'"

def Call.complained (c : Call) (isType : Json → Bool) (membername : String) (v : Option Json) : Call :=
  { c with jResponse := c.jResponse.withError (-32602) (complaint isType membername v) }

def readAt (isType : Json → Bool) (as : Json → Except StdException α) (j : Json) (key : String) : Option α :=
  (j.member key).bind fun v => if isType v && !v.empty then (as v).toOption else none

def stringAt := readAt Json.isString Json.asString

def uintAt := readAt Json.isUInt Json.asUInt

def boolAt := readAt Json.isBool fun v => .ok v.asBool

def objectAt := readAt Json.isObject fun v => .ok v

theorem requestValue_exec {isType : Json → Bool} {as : Json → Except StdException α}
    (hok : ∀ v, isType v = true → (as v).isOk = true) (h : jRequest.isOpen = true) (key : String) (ref : α) :
    (requestValue E isType as key ref jRequest false).exec c =
      match readAt isType as jRequest key with
      | some a => (.ok (some a), c)
      | none => (.ok none, c.complained isType key (jRequest.member key)) := by
  rw [requestValue, isMember_of_isOpen h, at_of_isOpen h, std_ok, raise_ok, pure_bind, readAt]
  rcases hv : jRequest.member key with _ | v
  · rfl
  · rw [std_ok, raise_ok, pure_bind, Option.isSome_some, Option.getD_some, Option.bind_some]
    by_cases htype : isType v = true
    · by_cases hempty : v.empty = true
      · simp only [htype, hempty, Call.complained, complaint]
        rfl
      · have hread := hok v htype
        rcases has : as v with x | a
        · rw [has] at hread
          cases hread
        · simp only [htype, Bool.eq_false_of_not_eq_true hempty]
          rfl
    · simp only [Bool.eq_false_of_not_eq_true htype, Call.complained, complaint]
      rfl

/-- What `Q` says where a reader returns. -/
def Read (Q : Option α → Call → Prop) (isType : Json → Bool) (key : String) (j : Json) (c : Call) : Option α → Prop
  | some a => Q (some a) c
  | none => Q none (c.complained isType key (j.member key))

theorem wp_requestValue {isType : Json → Bool} {as : Json → Except StdException α}
    (hok : ∀ v, isType v = true → (as v).isOk = true) (h : jRequest.isOpen = true) {key : String} {ref : α}
    {Q : Option α → Call → Prop} {X : Stop → Call → Prop} :
    wp (requestValue E isType as key ref jRequest false) Q X c ↔
      Read Q isType key jRequest c (readAt isType as jRequest key) := by
  rw [wp, requestValue_exec hok h]
  cases readAt isType as jRequest key <;> rfl

theorem asString_isOk (v : Json) (h : v.isString = true) : v.asString.isOk = true := by
  cases v <;> first | rfl | cases h

theorem asUInt_isOk (v : Json) (h : v.isUInt = true) : v.asUInt.isOk = true := by
  cases v with
  | int i =>
    have hi : 0 ≤ i ∧ i < 2 ^ 32 := of_decide_eq_true h
    rw [Json.asUInt, if_pos hi]
    rfl
  | real value text =>
    cases value with
    | none => cases h
    | some q =>
      have hq : 0 ≤ q ∧ q ≤ 2 ^ 32 - 1 ∧ q.den = 1 := of_decide_eq_true h
      rw [Json.asUInt, if_pos ⟨hq.1, hq.2.1⟩]
      rfl
  | null | bool | str | arr | obj => cases h

section

variable {key : String} {X : Stop → Call → Prop}

theorem wp_getRequestString (h : jRequest.isOpen = true) {ref : String} {Q : Option String → Call → Prop} :
    wp (getRequestString E key ref jRequest false) Q X c ↔
      Read Q Json.isString key jRequest c (stringAt jRequest key) :=
  wp_requestValue asString_isOk h

theorem wp_getRequestUInt (h : jRequest.isOpen = true) {ref : Nat} {Q : Option Nat → Call → Prop} :
    wp (getRequestUInt E key ref jRequest false) Q X c ↔ Read Q Json.isUInt key jRequest c (uintAt jRequest key) :=
  wp_requestValue asUInt_isOk h

theorem wp_getRequestBool (h : jRequest.isOpen = true) {ref : Bool} {Q : Option Bool → Call → Prop} :
    wp (getRequestBool E key ref jRequest false) Q X c ↔ Read Q Json.isBool key jRequest c (boolAt jRequest key) :=
  wp_requestValue (fun _ _ => rfl) h

theorem wp_getRequestObject (h : jRequest.isOpen = true) {ref : Json} {Q : Option Json → Call → Prop} :
    wp (getRequestObject E key ref jRequest false) Q X c ↔
      Read Q Json.isObject key jRequest c (objectAt jRequest key) :=
  wp_requestValue (fun _ _ => rfl) h

end

theorem isOpen_of_objectAt {j p : Json} {key : String} (h : objectAt j key = some p) : p.isOpen = true := by
  obtain ⟨v, -, hv⟩ := Option.bind_eq_some_iff.mp h
  split at hv
  · rename_i htype
    cases hv
    exact isOpen_of_isObject (Bool.and_eq_true_iff.mp htype).1
  · cases hv

variable {Q : Unit → Call → Prop} {X : Stop → Call → Prop}

@[simp] theorem wp_put {key : String} {v : Json} :
    wp (put key v) Q X c ↔ Q () { c with jResponse := c.jResponse.set key v } := Iff.rfl

@[simp] theorem wp_error {code : Int} {message : String} :
    wp (error code message) Q X c ↔ Q () { c with jResponse := c.jResponse.withError code message } := Iff.rfl

@[simp] theorem wp_modifyNode {f : Node → Node} : wp (modifyNode f) Q X c ↔ Q () { c with node := f c.node } := Iff.rfl

theorem wp_writing {body : R Unit} : wp (writing C body) Q X c ↔
    if C.readonly then Q () { c with jResponse := c.jResponse.withError (-32601) "Method not available" }
    else wp body Q X c := by
  rcases hr : C.readonly with _ | _ <;> simp [writing, checkApiWriteAccess, hr]

theorem wp_withParams (h : jRequest.isOpen = true) {body : Json → R Unit} : wp (withParams E jRequest body) Q X c ↔
    match objectAt jRequest "params" with
    | some p => wp (body p) Q X c
    | none => Q () (c.complained Json.isObject "params" (jRequest.member "params")) := by
  rw [withParams, wp_bind, wp_getRequestObject h]
  cases objectAt jRequest "params" <;> rfl

def methodOf (jRequest : Json) : Option String :=
  if stringAt jRequest "jsonrpc" = some "2.0" then stringAt jRequest "method" else none

theorem wp_readMethod (h : jRequest.isOpen = true) {Q : Option String → Call → Prop}
    (hsome : ∀ method, methodOf jRequest = some method → Q (some method) c)
    (hnone : methodOf jRequest = none → Q none c ∧ ∀ isType key v, Q none (c.complained isType key v)) :
    wp (readMethod E jRequest) Q X c := by
  rw [readMethod, wp_bind, wp_getRequestString h]
  rcases hv : stringAt jRequest "jsonrpc" with _ | jsonrpc
  · exact (hnone (by simp [methodOf, hv])).2 _ _ _
  · by_cases hversion : jsonrpc = "2.0"
    · have hm : methodOf jRequest = stringAt jRequest "method" := by simp [methodOf, hv, hversion]
      rw [hm] at hsome hnone
      simp only [Read, hversion, ne_eq, not_true_eq_false, if_false]
      rw [wp_getRequestString h]
      rcases hx : stringAt jRequest "method" with _ | method
      · exact (hnone hx).2 _ _ _
      · exact hsome method hx
    · simp only [Read, ne_eq, hversion, not_false_eq_true, if_true]
      exact (hnone (by simp [methodOf, hv, hversion])).1

def idOf (jRequest : Json) : Option Json :=
  match uintAt jRequest "id" with
  | some n => some (.int n)
  | none => (stringAt jRequest "id").map Json.str

def idComplaint (jRequest : Json) : String :=
  if ((jRequest.member "id").getD .null).empty then "Invalid Request (missing or empty id)"
  else "Invalid Request (id has invalid type)"

def idResponse (jRequest jResponse : Json) : Json :=
  match idOf jRequest with
  | some id => jResponse.set "id" id
  | none => (jResponse.set "id" .null).withError (-32600) (idComplaint jRequest)

theorem parseRequestId_exec (h : jRequest.isOpen = true) : (parseRequestId E jRequest).exec c =
    (.ok (idOf jRequest).isSome, { c with jResponse := idResponse jRequest c.jResponse }) := by
  rw [parseRequestId, isMember_of_isOpen h, at_of_isOpen h]
  simp only [std_ok, raise_ok, pure_bind]
  unfold idResponse idComplaint idOf uintAt stringAt readAt
  rcases hv : jRequest.member "id" with _ | v
  · rfl
  rw [Option.bind_some, Option.bind_some, Option.isSome_some, Option.getD_some, Bool.not_true, Bool.false_or]
  by_cases huint : v.isUInt = true
  · -- A number is never empty.
    have hempty : v.empty = false := by cases v <;> first | rfl | cases huint
    have hread := asUInt_isOk _ huint
    rcases has : v.asUInt with x | n
    · rw [has] at hread
      cases hread
    · rw [huint, hempty]
      rfl
  · rw [Bool.eq_false_of_not_eq_true huint]
    cases v with
    | arr l => cases l <;> rfl
    | obj l => cases l <;> rfl
    | null | bool | str | int | real => rfl

theorem wp_parseRequestId (h : jRequest.isOpen = true) {Q : Bool → Call → Prop} :
    wp (parseRequestId E jRequest) Q X c ↔
      Q (idOf jRequest).isSome { c with jResponse := idResponse jRequest c.jResponse } := by
  rw [wp, parseRequestId_exec h]

/-- The first look at what is no object throws. -/
theorem processRequest_throws (h : jRequest.isOpen = false) : (processRequest E C m jRequest).exec c =
    (.error (.exception (E.what .logicError)), { c with jResponse := c.jResponse.set "jsonrpc" (.str "2.0") }) := by
  rw [processRequest, parseRequestId, isMember_of_not_isOpen h]
  rfl

end readers

end CoreMiner.Api
