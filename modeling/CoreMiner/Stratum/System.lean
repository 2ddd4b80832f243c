/-
  CoreMiner.Stratum.System — the client together with its owner and the network
  (`PoolManager.cpp`: `rotateConnect`, `reconnecttimer_elapsed`, `stop` and the calls of
  `disconnect`, `submitSolution` and `submitHashrate`).

  A step runs the handler at the front of the queue, completes an operation or a timer
  (their handlers join the queue), lets time pass, or is a call the pool manager makes
  between two handlers. What the network, the pool and the user do is the events' choice:
  any data, any result, any order, any URI to rotate to.

  `rotateConnect` destroys the client before it builds a new one. Handlers of the destroyed
  client that are still queued would run on freed memory; here they vanish with it. An
  exception that leaves a handler ends the program, and so does following a null pointer:
  no step follows (`crashed`).
-/

import CoreMiner.Stratum.Connection

namespace CoreMiner.Stratum

open DevCore EthCore Lib
open Prog (when)

variable (E : Env)

def Handler.ofManager : Handler → Bool
  | rotateConnect | reconnectTimerElapsed => true
  | _ => false

/-- Replace the client by a new one (its constructor arms the timer for ever) and give it
    the connection `a`. -/
def St.newClient (s : St) (a : Nat) : St := { s with
  toClient := { conn := some a, timer := some .forever, pleas := Pleas.clear s.now }
  queue := s.queue.filter Handler.ofManager
  started := true }

/-- `rotateConnect`: the URI to connect to next and whether to wait for the reconnect timer
    first; `none` when there is none left. -/
def rotateConnect (choice : Option (Nat × Bool)) : M Unit := do
  let s ← get
  when (!(s.started && s.isConnected)) do
    match choice with
    | none => pure ()
    | some (a, delayed) =>
      modify fun s => s.newClient a
      emit (.setConnection a)
      modifyConn fun u => { u with responds := false }
      if delayed then modify fun s => { s with reconnectPending := true } else connect

def reconnectTimerElapsed : M Unit := do
  let s ← get
  when (!s.isConnected) connect

def runHandler (choice : Option (Nat × Bool)) : Handler → M Unit
  | .startConnect => startConnect
  | .disconnect => disconnect
  | .disconnectFinalize => disconnectFinalize
  | .resolveHandler endpoints => resolveHandler endpoints
  | .connectHandler ec handshakeFails => connectHandler E ec handshakeFails
  | .workloopTimerElapsed aborted => workloopTimerElapsed E aborted
  | .onRecvSocketDataCompleted data => onRecvSocketDataCompleted E data
  | .onSendSocketDataCompleted ec => onSendSocketDataCompleted ec
  | .onSSLShutdownCompleted => onSSLShutdownCompleted
  | .processResponse response => processResponse E response
  | .rotateConnect => rotateConnect choice
  | .reconnectTimerElapsed => reconnectTimerElapsed

inductive Ev where
  /-- Run the handler at the front; `choice` is for `rotateConnect`. -/
  | run (choice : Option (Nat × Bool))
  | timerExpires
  | resolved (endpoints : Option (List Nat))
  | connectCompletes (ec handshakeFails : Bool)
  | received (data : List Char)
  | readFails
  | written
  | writeFails (ec : WriteError)
  | shutdownCompletes
  | reconnectTimerExpires
  | advance (ns : Nat)
  /-- `failovertimer_elapsed` or `setActiveConnection`. -/
  | callDisconnect
  | stop
  | submitSolution (solution : Solution)
  | submitHashrate (rate : UInt64) (id : String)

def call (m : M Unit) (s : St) : St :=
  match m.exec s with
  | (.ok _, t) => t
  | (.error x, t) => { t with crashed := some x }

def St.push (s : St) (h : Handler) : St := { s with queue := s.queue ++ [h] }

def fire (s : St) : Ev → Option St
  | .run choice =>
    match s.queue with
    | [] => none
    | h :: queue => some (call (runHandler E choice h) { s with queue := queue })
  | .timerExpires =>
    match s.timer with
    | some (.until t) =>
      if t ≤ s.now then some ({ s with timer := none }.push (.workloopTimerElapsed false)) else none
    | _ => none
  | .resolved endpoints =>
    if 0 < s.resolves then some ({ s with resolves := s.resolves - 1 }.push (.resolveHandler endpoints)) else none
  | .connectCompletes ec handshakeFails =>
    if 0 < s.connects then some ({ s with connects := s.connects - 1 }.push (.connectHandler ec handshakeFails))
    else none
  | .received data =>
    if 0 < s.reads ∧ data ≠ [] then
      some ({ s with reads := s.reads - 1 }.push (.onRecvSocketDataCompleted (some data)))
    else none
  | .readFails =>
    if 0 < s.reads then some ({ s with reads := s.reads - 1 }.push (.onRecvSocketDataCompleted none)) else none
  | .written =>
    match s.writes with
    | [] => none
    | n :: writes => some ({ s with
        writes := writes
        sendBuffer := s.sendBuffer.drop n
        written := s.written ++ s.sendBuffer.take n
        log := .wrote (s.sendBuffer.take n) :: s.log }.push (.onSendSocketDataCompleted none))
  | .writeFails ec =>
    match s.writes with
    | [] => none
    | _ :: writes => some ({ s with writes := writes }.push (.onSendSocketDataCompleted (some ec)))
  | .shutdownCompletes =>
    if 0 < s.shutdowns then some ({ s with shutdowns := s.shutdowns - 1 }.push .onSSLShutdownCompleted) else none
  | .reconnectTimerExpires =>
    if s.reconnectPending then some ({ s with reconnectPending := false }.push .reconnectTimerElapsed) else none
  | .advance ns => some { s with now := s.now + ns }
  | .callDisconnect => if s.started then some (call disconnect s) else none
  | .stop =>
    if s.started && s.isConnected then some (call disconnect { s with stopping := true })
    else some { s with stopping := true, reconnectPending := false }
  | .submitSolution solution =>
    if s.started && s.isConnected then some (call (submitSolution E solution) s) else none
  | .submitHashrate rate id =>
    if s.started && s.isConnected then some (call (submitHashrate E rate id) s) else none

def step (s : St) (e : Ev) : Option St := if s.crashed.isSome then none else fire E s e

/-- A URI as the pool manager gets it from its text. -/
structure Uri.Fresh (u : Uri) : Prop where
  mode : u.stratumMode = 999
  confirmed : u.stratumModeConfirmed = false
  unrecoverable : u.unrecoverable = false
  responds : u.responds = false
  version : u.version ≤ 3 ∨ u.version = 999

def init (uris : Nat → Uri) : St := { uris, queue := [.rotateConnect] }

inductive Run (C : St → Ev → Prop) : St → Prop
  | init {uris : Nat → Uri} (h : ∀ a, (uris a).Fresh) : Run C (init uris)
  | step {s t : St} (e : Ev) : Run C s → C s e → step E s e = some t → Run C t

abbrev Reach : St → Prop := Run E fun _ _ => True

def play (s : St) (es : List Ev) : Option St := es.foldlM (step E) s

theorem reach_play {s t : St} {es : List Ev} (hs : Reach E s) (h : play E s es = some t) : Reach E t := by
  induction es generalizing s with
  | nil =>
    cases h
    exact hs
  | cons e es ih =>
    obtain ⟨u, hu, ht⟩ := Option.bind_eq_some_iff.mp h
    exact ih (.step e hs trivial hu) ht

/-! ## For traces -/

def plainUri (version : Nat) : Uri := { version, secLevel := .none, hostNameType := .ipv4 }

theorem plainUri_fresh (version : Nat) (h : version ≤ 3 ∨ version = 999) : (plainUri version).Fresh :=
  ⟨rfl, rfl, rfl, rfl, h⟩

def tableEnv (texts : List (String × Json)) : Env where
  parse line := .ok (texts.lookup (String.ofList line))
  writeString _ := "request"
  projectNameWithVersion := "coreminer"
  workTimeout := 180
  responseTimeout := 2

def lineOf (text : String × Json) : List Char := text.1.toList ++ ['\n']

theorem reach_of_trace {uris : Nat → Uri} (h : ∀ a, (uris a).Fresh) (es : List Ev) {p : St → Prop} [DecidablePred p]
    (hp : (play E (init uris) es).any (fun s => p s) = true) : ∃ s, Reach E s ∧ p s := by
  cases hplay : play E (init uris) es with
  | none => simp [hplay] at hp
  | some s => exact ⟨s, reach_play E (.init h) hplay, by simpa [hplay] using hp⟩

def Out.shows (p : WorkPackage → Bool) : Out → Bool
  | .onWorkReceived w => p w
  | _ => false

theorem reach_of_dispatch {uris : Nat → Uri} (h : ∀ a, (uris a).Fresh) (es : List Ev) (p : WorkPackage → Bool)
    (hp : (play E (init uris) es).any (fun s => s.log.any (Out.shows p)) = true) :
    ∃ s w, Reach E s ∧ .onWorkReceived w ∈ s.log ∧ p w = true := by
  obtain ⟨s, hs, hlog⟩ := reach_of_trace E h es (p := fun s => s.log.any (Out.shows p) = true)
    (by simpa only [Bool.decide_eq_true] using hp)
  obtain ⟨o, ho, hw⟩ := List.any_eq_true.mp hlog
  cases o with
  | onWorkReceived w => exact ⟨s, w, hs, ho, hw⟩
  | _ => cases hw

def playIf (C : St → Ev → Bool) (s : St) (es : List Ev) : Option St :=
  es.foldlM (fun s e => if C s e then step E s e else none) s

theorem run_playIf {C : St → Ev → Bool} {s t : St} {es : List Ev} (hs : Run E (fun s e => C s e = true) s)
    (h : playIf E C s es = some t) : Run E (fun s e => C s e = true) t := by
  induction es generalizing s with
  | nil =>
    cases h
    exact hs
  | cons e es ih =>
    obtain ⟨u, hu, ht⟩ := Option.bind_eq_some_iff.mp h
    obtain ⟨hC, hstep⟩ := Option.ite_none_right_eq_some.mp hu
    exact ih (.step e hs hC hstep) ht

theorem run_of_trace {C : St → Ev → Bool} {uris : Nat → Uri} (h : ∀ a, (uris a).Fresh) (es : List Ev) {p : St → Prop}
    [DecidablePred p] (hp : (playIf E C (init uris) es).any (fun s => p s) = true) :
    ∃ s, Run E (fun s e => C s e = true) s ∧ p s := by
  cases hplay : playIf E C (init uris) es with
  | none => simp [hplay] at hp
  | some s => exact ⟨s, run_playIf E (.init h) hplay, by simpa [hplay] using hp⟩

def connectTrace : List Ev := [.run (some (0, false)), .run none, .run none, .connectCompletes false false, .run none]

end CoreMiner.Stratum
