/-
  CoreMiner.Api.Session — a session of the API (`ApiServer.cpp`: `ApiConnection::start`,
  `recvSocketData`, `onRecvSocketDataCompleted`, `sendSocketData`, `onSendSocketDataCompleted`,
  `disconnect`).

  What is received is appended to `m_message`. If that looks like an HTTP request, it is
  answered and the connection closed; otherwise the complete lines are taken off its front,
  and each is parsed, processed and answered. A read is pending only after `recvSocketData`.

  A write transmits all that `m_sendBuffer` holds when it is initiated, and takes as many
  bytes off its front when it completes; any write under way may be the next to complete.
  `disconnect` destroys the session, so a completion behind it follows a dangling pointer.
-/

import CoreMiner.Api.Requests
import CoreMiner.Lib.LineLoop
import CoreMiner.Stratum.Receive

namespace CoreMiner.Api

open DevCore Lib
open Prog (when zoom)
open Stratum (trim)

structure St where
  node : Node
  isAuthenticated : Bool
  message : List Char := []
  isOpen : Bool := true
  /-- A read is pending. -/
  reading : Bool
  sendBuffer : List Char := []
  /-- The writes under way: how much each transmits, and whether the connection is closed behind it. -/
  writes : List (Nat × Bool) := []
  /-- What was transmitted. -/
  wire : List Char := []
  /-- What was passed to `processRequest`: history. -/
  requests : List Json := []

abbrev M := Prog St Stop

variable (E : Env) (C : Config) (m : Moment)

def recvSocketData : M Unit := modify fun s => { s with reading := true }

def disconnect : M Unit := modify fun s => { s with isOpen := false }

/-! ## Sending -/

def asyncWrite (disconnects : Bool) : M Unit :=
  modify fun s => { s with wire := s.wire ++ s.sendBuffer, writes := s.writes ++ [(s.sendBuffer.length, disconnects)] }

def sendSocketData (text : List Char) (disconnects : Bool) : M Unit := do
  let s ← get
  when s.isOpen do
    modify fun s => { s with sendBuffer := s.sendBuffer ++ text }
    asyncWrite disconnects

def Env.line (jRes : Json) : List Char := E.writeString jRes ++ ['\n']

def sendSocketJson (jRes : Json) (disconnects : Bool) : M Unit := do
  let s ← get
  when s.isOpen (sendSocketData (E.line jRes) disconnects)

def onSendSocketDataCompleted (ec disconnects : Bool) : M Unit := when (ec || disconnects) disconnect

/-! ## Requests -/

def St.call (s : St) : Call := { node := s.node, isAuthenticated := s.isAuthenticated }

def St.called (c : Call) (s : St) : St := { s with node := c.node, isAuthenticated := c.isAuthenticated }

def response (jMsg : Json) : R Json := do
  processRequest E C m jMsg
  let c ← get
  return c.jResponse

def failure (errorcode message : String) : Json := .obj [("jsonrpc", .str "2.0"), ("id", .null),
  ("error", .obj [("errorcode", .str errorcode), ("message", .str message)])]

def handleRequest (jMsg : Json) : M Json := do
  modify fun s => { s with requests := s.requests ++ [jMsg] }
  tryCatch (zoom St.call St.called (response E C m jMsg)) fun
    | .exception what => pure (failure "500" what)
    | .undefined => throw .undefined

def onOneLine (what : String) : String := what.map fun c => if c = '\n' then ' ' else c

def answer (line : List Char) : M Json := do
  match ← raise (E.std (E.parse line)) with
  | .ok jMsg => handleRequest E C m jMsg
  | .error what => return failure "-32700" ("Json parse error : " ++ onOneLine what)

def processLine (line : List Char) : M Unit := do
  let jRes ← answer E C m line
  sendSocketJson E jRes false

/-- The `while (linedelimiteroffset != string::npos)` loop; `fuel` bounds its iterations. -/
def lineLoop : Nat → M Unit
  | 0 => pure ()
  | fuel + 1 => do
    let s ← get
    match s.message.findIdx? (· = '\n') with
    | none => pure ()
    | some offset =>
      when (0 < offset) do
        let line := trim (s.message.take offset)
        when (!line.isEmpty) (processLine E C m line)
      modify fun s => { s with message := s.message.drop (offset + 1) }
      lineLoop fuel

/-! ## HTTP -/

structure HttpRequest where
  method : String
  path : String
  ver : String
  deriving DecidableEq, Repr

/-- The pattern `^([A-Z]{1,6}) (\/[\S]*) (HTTP\/1\.[0-9]{1})`: neither group can end in more than one
    place, as a blank follows. -/
def httpRequest (message : List Char) : Option HttpRequest :=
  let method := message.takeWhile fun c => 'A' ≤ c ∧ c ≤ 'Z'
  if method.length = 0 ∨ 6 < method.length then none
  else match message.drop method.length with
    | ' ' :: '/' :: rest =>
      let path := rest.takeWhile fun c => !isSpace c
      match rest.drop path.length with
      | ' ' :: 'H' :: 'T' :: 'T' :: 'P' :: '/' :: '1' :: '.' :: d :: _ =>
        if '0' ≤ d ∧ d ≤ '9' then
          some { method := String.ofList method, path := String.ofList ('/' :: path),
                 ver := "HTTP/1." ++ String.ofList [d] }
        else none
      | _ => none
    | _ => none

def httpResponse (ver status contentType body : String) : String :=
  ver ++ " " ++ status ++ "\r\n" ++ "Server: " ++ E.projectNameWithVersion ++ "\r\n" ++
  "Content-Type: " ++ contentType ++ "\r\n" ++ "Content-Length: " ++ toString body.length ++ "\r\n\r\n" ++
  body ++ "\r\n"

def isPage (r : HttpRequest) : Bool := r.method = "GET" && (r.path = "/" || r.path = "/getstat1")

def refusal (r : HttpRequest) : String :=
  if r.method ≠ "GET" then
    httpResponse E r.ver "405 Method not allowed" "text/plain" ("Method " ++ r.method ++ " not allowed")
  else
    httpResponse E r.ver "404 Not Found" "text/plain"
      ("The requested resource " ++ r.path ++ " not found on this server")

def page (r : HttpRequest) (n : Node) : Except Stop String :=
  match getHttpMinerStatDetail E m n with
  | .ok body => .ok (httpResponse E r.ver "200 Ok Error" "text/html; charset=utf-8" body)
  | .error (.exception what) =>
    .ok (httpResponse E r.ver "500 Internal Server Error" "text/plain" ("Internal error : " ++ what))
  | .error .undefined => .error .undefined

def httpText (r : HttpRequest) (n : Node) : Except Stop String :=
  if isPage r then page E m r n else .ok (refusal E r)

def handleHttp (r : HttpRequest) : M Unit := do
  let s ← get
  let text ← raise (httpText E m r s.node)
  sendSocketData text.toList true
  modify fun s => { s with message := [] }

/-! ## Receiving -/

/-- `none` is an error code. -/
def onRecvSocketDataCompleted (data : Option (List Char)) : M Unit := do
  modify fun s => { s with reading := false }
  match data with
  | some (c :: rxMessage) =>
    modify fun s => { s with message := s.message ++ c :: rxMessage }
    let s ← get
    if s.message.length < 4 then return
    match httpRequest s.message with
    | some r => handleHttp E m r
    | none =>
      lineLoop E C m (s.message.length + 1)
      let s ← get
      when s.isOpen recvSocketData
  | _ => disconnect

/-! ## Runs -/

inductive Ev where
  | received (m : Moment) (data : Option (List Char))
  /-- The `i`-th of the writes under way completes. -/
  | sent (i : Nat) (ec : Bool)

/-- A handler's `this` must not be destroyed. -/
def alive : M Unit := do
  let s ← get
  when (!s.isOpen) (throw .undefined)

/-- A completion of what is not under way is none. -/
def step : Ev → M Unit
  | .received m data => do
    let s ← get
    when s.reading do
      alive
      onRecvSocketDataCompleted E C m data
  | .sent i ec => do
    let s ← get
    match s.writes[i]? with
    | none => pure ()
    | some (n, disconnects) =>
      alive
      modify fun s => { s with writes := s.writes.eraseIdx i, sendBuffer := s.sendBuffer.drop n }
      onSendSocketDataCompleted ec disconnects

def run (events : List Ev) : M Unit := forM events (step E C)

def St.init (C : Config) (n : Node) : St := { node := n, isAuthenticated := C.password.isEmpty, reading := true }

/-! ## The loop as a pass over lines -/

section lines

open Prog

variable {E C m}

def handleLine (E : Env) (C : Config) (m : Moment) (line : List Char) : M Unit :=
  when (!(trim line).isEmpty) (processLine E C m (trim line))

def takeLine (E : Env) (C : Config) (m : Moment) (line : List Char) : M Unit := do
  handleLine E C m line
  modify fun s => { s with message := s.message.drop (line.length + 1) }

def consume (E : Env) (C : Config) (m : Moment) (lines : List (List Char)) : M Unit := forM lines (takeLine E C m)

structure Served (s t : St) : Prop where
  message : t.message = s.message
  reading : t.reading = s.reading
  isOpen : t.isOpen = s.isOpen

theorem Served.refl (s : St) : Served s s := ⟨rfl, rfl, rfl⟩

theorem Served.trans (s t u : St) (h : Served s t) (h' : Served t u) : Served s u :=
  ⟨h'.message.trans h.message, h'.reading.trans h.reading, h'.isOpen.trans h.isOpen⟩

abbrev Serves {α : Type} (p : M α) : Prop := Keeps Served (fun _ _ => True) p

theorem Serves.bind {α β : Type} {p : M α} {f : α → M β} (hp : Serves p) (hf : ∀ a, Serves (f a)) : Serves (p >>= f) :=
  Keeps.bind Served.trans (fun _ _ _ _ _ => trivial) hp hf

theorem raise_serves {α : Type} (e : Except Stop α) : Serves (raise e : M α) := by
  cases e with
  | ok a => exact Keeps.pure Served.refl a
  | error x => exact Keeps.throw Served.refl fun _ => trivial

theorem handleRequest_serves (jMsg : Json) : Serves (handleRequest E C m jMsg) := by
  refine Serves.bind (.modify fun s => ⟨rfl, rfl, rfl⟩) fun _ => ?_
  refine Keeps.tryCatch Served.trans (fun _ _ _ _ _ => trivial) ?_ fun x => ?_
  · exact Keeps.zoom (fun s t => ⟨rfl, rfl, rfl⟩) (fun _ _ _ => trivial)
      ⟨fun s => wp_iff_exec.mpr ⟨fun _ _ _ => trivial, fun _ _ _ => ⟨trivial, trivial⟩⟩⟩
  · cases x with
    | exception what => exact Keeps.pure Served.refl _
    | undefined => exact Keeps.throw Served.refl fun _ => trivial

theorem sendSocketData_serves (text : List Char) (disconnects : Bool) : Serves (sendSocketData text disconnects) :=
  Serves.bind (.get Served.refl) fun _ => .when Served.refl fun _ =>
    Serves.bind (.modify fun _ => ⟨rfl, rfl, rfl⟩) fun _ => .modify fun _ => ⟨rfl, rfl, rfl⟩

theorem processLine_serves (line : List Char) : Serves (processLine E C m line) := by
  refine Serves.bind (Serves.bind (raise_serves _) fun r => ?_) fun jRes => ?_
  · cases r with
    | ok jMsg => exact handleRequest_serves jMsg
    | error what => exact Keeps.pure Served.refl _
  · exact Serves.bind (.get Served.refl) fun _ => .when Served.refl fun _ => sendSocketData_serves _ _

theorem handleLine_serves (line : List Char) : Serves (handleLine E C m line) :=
  .when Served.refl fun _ => processLine_serves _

theorem handleLine_eq (line : List Char) :
    when (0 < line.length) (when (!(trim line).isEmpty) (processLine E C m (trim line))) = handleLine E C m line := by
  cases line with
  | nil => rfl
  | cons c line => simp [handleLine, when]

theorem lineLoop_isLineLoop : IsLineLoop '\n' (fun s : St => s.message)
    (fun n s => { s with message := s.message.drop n }) (handleLine E C m) (lineLoop E C m) where
  buf_erase _ _ := rfl
  keeps line s := wp_mono ((handleLine_serves line).from_ s) (fun _ _ h => h.message) fun _ _ _ => trivial
  done fuel s hno := by
    have hfind : s.message.findIdx? (· = '\n') = none :=
      List.findIdx?_eq_none_iff.mpr fun c hc => decide_eq_false (ne_of_mem_of_not_mem hc hno)
    rw [lineLoop, exec_bind_ok (exec_get s), hfind]
    rfl
  turn fuel s offset hfind := by
    have hhandle := handleLine_eq (E := E) (C := C) (m := m) (s.message.take offset)
    rw [(split_of_findIdx? hfind).2.2] at hhandle
    rw [lineLoop, exec_bind_ok (exec_get s), hfind]
    simp only [hhandle]

theorem lineLoop_exec {fuel : Nat} {s : St} (h : s.message.length < fuel) :
    (lineLoop E C m fuel).exec s = (consume E C m (Lines.lines '\n' s.message)).exec s :=
  lineLoop_isLineLoop.exec_eq h

def St.receiving (s : St) (rx : List Char) : St := { s with reading := false, message := s.message ++ rx }

def handleMessage (E : Env) (C : Config) (m : Moment) (message : List Char) : M Unit :=
  if message.length < 4 then pure ()
  else match httpRequest message with
    | some r => handleHttp E m r
    | none => do
      consume E C m (Lines.lines '\n' message)
      let s ← get
      when s.isOpen recvSocketData

theorem onRecvSocketDataCompleted_exec {rx : List Char} (hrx : rx ≠ []) (s : St) :
    (onRecvSocketDataCompleted E C m (some rx)).exec s =
      (handleMessage E C m (s.message ++ rx)).exec (s.receiving rx) := by
  cases rx with
  | nil => exact absurd rfl hrx
  | cons c rxMessage =>
    rw [onRecvSocketDataCompleted, exec_bind_ok (exec_modify _ s), exec_bind_ok (exec_modify _ _),
      exec_bind_ok (exec_get _), handleMessage]
    simp only [St.receiving]
    split
    · rfl
    · split
      · rfl
      · have hloop := lineLoop_exec (E := E) (C := C) (m := m) (s := s.receiving (c :: rxMessage)) (Nat.lt_succ_self _)
        simp only [St.receiving, Nat.succ_eq_add_one] at hloop
        rw [exec_bind, exec_bind, hloop]

end lines

end CoreMiner.Api
