/-
  CoreMiner.Pools.System — the pool manager with its client, the farm and its miners
  (`PoolManager.cpp`; `Farm.cpp`: `submitProof`, `submitProofAsync`; `CPUMiner.cpp`: `search`).

  One thread runs the handlers of the client, of the manager's timers and of the solutions
  the miners find, in posting order. The client's queue is part of its state; a handler of
  one of the others is kept with the number of the client's handlers that are ahead of it.
  The client is the one of `Stratum.System`: every call into it and every handler of its
  own is an event there, and `rotateConnect` gives it the URI the manager selects. What the
  client reports while an event happens the manager hears at its end, in order; none of its
  handlers calls back, but for what `onDisconnected` does to the client, which is in
  `Stratum.Connection`.

  The API's calls and `stop` come between two handlers. A miner's thread fetches its package
  and searches it until it looks for a new one, so it may find a solution for a package that
  was replaced in the meantime.
-/

import CoreMiner.Lib.Past
import CoreMiner.Pools.Manager
import CoreMiner.Stratum.Reports

namespace CoreMiner.Pools

open DevCore EthCore Lib Stratum

inductive Task where
  | failovertimerElapsed
  | submitProofAsync (solution : Solution)

structure Pool extends Manager where
  st : St
  /-- With the number of the client's handlers ahead of each. -/
  tasks : List (Nat × Task) := []
  /-- What the miners' threads are searching, by the miner's index. -/
  searching : List (Nat × WorkPackage) := []

inductive Ev where
  /-- Run the next handler; `random` is drawn if the farm shuffles. -/
  | run (random : UInt64)
  /-- An operation or a timer of the client's completes, or time passes. -/
  | completes (e : Stratum.Ev)
  | failovertimerExpires
  | addConnection (uri : Except String Nat)
  | removeConnection (idx : Nat)
  | setActiveConnection (idx : Nat)
  | setActiveConnectionUri (connstring : String)
  | stop
  | submitHashrate (rate : UInt64) (id : String)
  /-- A miner's thread takes the miner's package. -/
  | fetch (miner : Nat)
  | found (miner : Nat) (nonce : UInt64) (mixHash : H256)
  /-- A miner's thread stops searching. -/
  | leave (miner : Nat)

section

variable (E : Env) (S : Settings)

/-- The manager's handler for what the client reports, `t` being the client's state then. -/
def react (t : St) (random : UInt64) (o : Out) (m : Manager) : Manager :=
  match o with
  | .onConnected => m.onConnected S t.now random
  | .onDisconnected => m.onDisconnected t.stopping
  | .onWorkReceived wp => m.onWorkReceived S ((t.conn.map fun a => (t.uris a).stratumMode).getD 0) random wp
  | _ => m

namespace Pool

def news (p : Pool) (t : St) : List Out := t.log.take (t.log.length - p.st.log.length)

/-- The client is in the state `t`, and the manager has heard what it reported. -/
def hearing (p : Pool) (random : UInt64) (t : St) : Pool :=
  { p with toManager := (p.news t).foldr (react S t random) p.toManager, st := t }

def client (p : Pool) (random : UInt64) (e : Stratum.Ev) : Option Pool := (fire E p.st e).map (p.hearing S random)

/-- The handler at the front of the client's queue is taken off; a new client drops the
    handlers of the old one. -/
def passed (p : Pool) (renews : Bool) : Pool := { p with
  tasks := p.tasks.map fun (n, task) =>
    (if renews then (p.st.queue.tail.take (n - 1)).countP Handler.ofManager else n - 1, task) }

def rotate (p : Pool) (random : UInt64) : Option Pool :=
  if p.st.started && p.st.isConnected then (p.passed false).client E S random (.run none)
  else
    match p.rotateConnect S p.st.uris with
    | none => some { p with st := { p.st with crashed := some (.exception .outOfRange) } }
    | some (m, choice) => { p.passed choice.isSome with toManager := m }.client E S random (.run choice)

def runHandler (p : Pool) (random : UInt64) : Option Pool :=
  match p.st.queue with
  | [] => none
  | .rotateConnect :: _ => p.rotate E S random
  | .reconnectTimerElapsed :: queue =>
    if p.running then (p.passed false).client E S random (.run none)
    else some { p.passed false with st := { p.st with queue } }
  | _ :: _ => (p.passed false).client E S random (.run none)

def onSolutionFound (p : Pool) (solution : Solution) : Option Pool :=
  if p.st.started && p.st.isConnected then p.client E S 0 (.submitSolution solution) else some p

def submitProofAsync (p : Pool) (solution : Solution) : Option Pool :=
  if S.noEval then p.onSolutionFound E S solution
  else
    match S.eval solution.work solution.nonce with
    | none => some p
    | some mixHash => p.onSolutionFound E S { solution with mixHash }

/-- The manager has changed its mind about the active connection. It does so behind a session
    only, so there is a client by then. -/
def switched (p : Pool) (m : Manager) (disconnects : Bool) : Option Pool :=
  if disconnects then { p with toManager := m }.client E S 0 .callDisconnect else some { p with toManager := m }

def runTask (p : Pool) : Task → Option Pool
  | .failovertimerElapsed => p.switched E S p.failovertimerElapsed.1 p.failovertimerElapsed.2
  | .submitProofAsync solution => p.submitProofAsync E S solution

/-- A task that no handler of the client's is ahead of. -/
def due (t : Nat × Task) : Bool := t.1 = 0

def runNext (p : Pool) (random : UInt64) : Option Pool :=
  match p.tasks.find? due with
  | some (_, task) => { p with tasks := p.tasks.eraseP due }.runTask E S task
  | none => p.runHandler E S random

def post (p : Pool) (task : Task) : Pool := { p with tasks := p.tasks ++ [(p.st.queue.length, task)] }

def request (p : Pool) (call : P Unit) : Pool := { p with toManager := (call.exec p.toManager).2 }

def requestSwitch (p : Pool) (call : P Bool) : Option Pool :=
  match call.exec p.toManager with
  | (.ok disconnects, m) => p.switched E S m disconnects
  | (.error _, m) => some { p with toManager := m }

/-- `PoolManager::stop`, but for the wait. -/
def stop (p : Pool) : Option Pool :=
  if p.running then { p with toManager := p.toManager.stop (p.st.started && p.st.isConnected) }.client E S 0 .stop
  else some p

end Pool

def act (p : Pool) : Ev → Option Pool
  | .run random => p.runNext E S random
  | .completes e => if e.isCompletion then p.client E S 0 e else none
  | .failovertimerExpires =>
    match p.failovertimer with
    | some t => if t ≤ p.st.now then some ({ p with failovertimer := none }.post .failovertimerElapsed) else none
    | none => none
  | .addConnection uri => some (p.request (Pools.addConnection uri))
  | .removeConnection idx => some (p.request (Pools.removeConnection idx))
  | .setActiveConnection idx => p.requestSwitch E S (Pools.setActiveConnection idx)
  | .setActiveConnectionUri connstring => p.requestSwitch E S (Pools.setActiveConnectionUri S connstring)
  | .stop => p.stop E S
  | .submitHashrate rate id => p.client E S 0 (.submitHashrate rate id)
  | .fetch miner =>
    match p.farm.miners[miner]? with
    | some m =>
      if m.work.header = .zero 32 then none
      else some { p with searching := (miner, m.work) :: p.searching.filter (·.1 ≠ miner) }
    | none => none
  | .found miner nonce mixHash =>
    (p.searching.lookup miner).map fun work => p.post (.submitProofAsync { nonce, mixHash, work, midx := miner })
  | .leave miner => some { p with searching := p.searching.filter (·.1 ≠ miner) }

def step (p : Pool) (e : Ev) : Option Pool := if p.st.crashed.isSome then none else act E S p e

end

def init (connections : List Nat) (uris : Nat → Uri) (farm : Farm) : Pool where
  toManager := Manager.start { connections, farm }
  st := Stratum.init uris

inductive Started : Pool → Prop
  | mk {connections : List Nat} {uris : Nat → Uri} (devices : List DeviceSubscriptionTypeEnum) (ergodicity : Nat)
    (random : UInt64) (h : connections ≠ []) (hu : ∀ a, (uris a).Fresh) :
    Started (init connections uris (.init devices ergodicity random))

abbrev Run (E : Env) (S : Settings) (C : Pool → Ev → Prop) : List (Pool × Ev) → Pool → Prop :=
  Traced (step E S) Started C

abbrev Reach (E : Env) (S : Settings) : List (Pool × Ev) → Pool → Prop := Run E S fun _ _ => True

/-! ## For traces -/

def traceSettings : Settings where
  connectionMaxRetries := 3
  delayBeforeRetry := 0
  poolFailoverTimeout := 1
  noEval := true
  str a := if a = 0 then "first" else "second"
  findEpochNumber _ := 0
  eval _ _ := none

def tracePool : Pool := init [0, 1] (fun _ => plainUri ETHPROXY) (.init [.cpu] 0 0)

theorem tracePool_started : Started tracePool :=
  .mk _ _ _ (by simp) fun _ => plainUri_fresh ETHPROXY (.inl (by decide))

def accepted : String × Json := ("y", .obj [("id", .int 1), ("result", .bool true)])

def sessionTrace : List Ev :=
  [.run 0, .run 0, .run 0, .completes (.connectCompletes false false), .run 0, .completes (.received (lineOf accepted)),
    .run 0]

end CoreMiner.Pools
