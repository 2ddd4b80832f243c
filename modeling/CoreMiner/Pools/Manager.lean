/-
  CoreMiner.Pools.Manager — the pool manager's book-keeping (`PoolManager.cpp`, `PoolManager.h`).

  The manager keeps a list of connections (pointers to URI objects, see `Stratum.State`),
  which of them is active and how often it was attempted, and the flags its methods share.
  Its methods are given here without the calls they make into the client: the ones the API
  calls are programs that may throw, and say whether the client is to be disconnected;
  `rotateConnect` says which URI a new client gets; the rest are the handlers the client
  fires. The calls are made in `Pools.System`.

  `select` is the part of `rotateConnect` that chooses. From an index within bounds it never
  runs out of bounds (`select_cases`), it moves to the next entry in cyclic order
  (`next?`), and it checks the mark `IsUnrecoverable` of the entry it finds active, not of
  the one it moves to.
-/

import CoreMiner.EthCore.Farm
import CoreMiner.Stratum.State

namespace CoreMiner.Pools

open DevCore EthCore Lib
open Prog (when)
open Stratum (Uri)

/-- `PoolSettings`, the farm's `noEval`, and the functions the manager and the farm are given. -/
structure Settings where
  connectionMaxRetries : Nat
  /-- In seconds. -/
  delayBeforeRetry : Nat
  /-- In minutes; 0 for never. -/
  poolFailoverTimeout : Nat
  noEval : Bool
  /-- `URI::str`: the text the object was made from. -/
  str : Nat → String
  findEpochNumber : H256 → Int
  /-- `EthashAux::eval`: the mix hash, unless the value is above the work's boundary. -/
  eval : WorkPackage → UInt64 → Option H256

structure Manager where
  connections : List Nat
  activeConnectionIdx : Nat := 0
  connectionAttempt : Nat := 0
  connectionSwitches : Nat := 0
  epochChanges : Nat := 0
  asyncPending : Bool := false
  running : Bool := false
  /-- When `m_failovertimer` expires, if it is armed. -/
  failovertimer : Option Nat := none
  currentWp : WorkPackage := {}
  farm : Farm

abbrev P := Prog Manager String

namespace Manager

def active (m : Manager) : Option Nat := m.connections[m.activeConnectionIdx]?

/-- The posting of `rotateConnect` apart. -/
def start (m : Manager) : Manager :=
  { m with running := true, asyncPending := true, connectionSwitches := m.connectionSwitches + 1 }

/-- `connected` is what the client says; its `disconnect` follows. -/
def stop (m : Manager) (connected : Bool) : Manager :=
  if connected then { m with asyncPending := true }
  else { m with asyncPending := true, failovertimer := none, farm := m.farm.stop }

end Manager

/-! ## The API's methods -/

/-- A new URI object, or an existing one; the constructor may throw. -/
def addConnection (uri : Except String Nat) : P Unit := do
  match uri with
  | .error what => throw what
  | .ok a => modify fun m => { m with connections := m.connections ++ [a] }

def removeConnection (idx : Nat) : P Unit := do
  let m ← get
  when m.asyncPending (throw "Outstanding operations. Retry ...")
  when (m.connections.length ≤ idx) (throw "Index out-of bounds.")
  when (idx = m.activeConnectionIdx) (throw "Can't remove active connection")
  modify fun m => { m with connections := m.connections.eraseIdx idx }
  when (idx < m.activeConnectionIdx) do
    modify fun m => { m with activeConnectionIdx := m.activeConnectionIdx - 1 }

/-- Is the client to be disconnected? -/
def setActiveConnectionCommon (idx : Nat) : P Bool := do
  let m ← get
  when m.asyncPending (throw "Outstanding operations. Retry ...")
  modify fun m => { m with asyncPending := true }
  if idx ≠ m.activeConnectionIdx then
    modify fun m => { m with
      connectionSwitches := m.connectionSwitches + 1
      activeConnectionIdx := idx
      connectionAttempt := 0 }
    return true
  else
    modify fun m => { m with asyncPending := false }
    return false

def setActiveConnection (idx : Nat) : P Bool := do
  let m ← get
  when (m.connections.length ≤ idx) (throw "Index out-of bounds.")
  setActiveConnectionCommon idx

def iequals (s t : String) : Bool := s.toList.map Char.toUpper = t.toList.map Char.toUpper

def setActiveConnectionUri (S : Settings) (connstring : String) : P Bool := do
  let m ← get
  match m.connections.findIdx? fun a => iequals (S.str a) connstring with
  | some idx => setActiveConnectionCommon idx
  | none => throw "Not found."

structure ConnectionJson where
  index : Nat
  active : Bool
  uri : String

def Manager.getConnectionsJson (m : Manager) (S : Settings) : List ConnectionJson :=
  m.connections.mapIdx fun i a => { index := i, active := i = m.activeConnectionIdx, uri := S.str a }

/-! ## Rotation -/

namespace Manager

def inBounds (m : Manager) : Manager :=
  if m.connections.length ≤ m.activeConnectionIdx then { m with activeConnectionIdx := 0 } else m

/-- The active connection is erased; the one behind it, or the first, becomes active. -/
def discard (m : Manager) : Manager := { m with
  connections := m.connections.eraseIdx m.activeConnectionIdx
  connectionAttempt := 0
  activeConnectionIdx :=
    if (m.connections.eraseIdx m.activeConnectionIdx).length ≤ m.activeConnectionIdx then 0 else m.activeConnectionIdx
  connectionSwitches := m.connectionSwitches + 1 }

def giveUp (m : Manager) : Manager := { m with connections := m.connections.eraseIdx m.activeConnectionIdx }

def advance (m : Manager) : Manager := { m with
  connectionAttempt := 0
  activeConnectionIdx := if m.connections.length ≤ m.activeConnectionIdx + 1 then 0 else m.activeConnectionIdx + 1
  connectionSwitches := m.connectionSwitches + 1 }

/-- The first half of `rotateConnect`; `none` when `at` throws. -/
def select (S : Settings) (uris : Nat → Uri) (m : Manager) : Option Manager :=
  m.inBounds.active.map fun a =>
    if (uris a).unrecoverable then m.inBounds.discard
    else if S.connectionMaxRetries ≤ m.inBounds.connectionAttempt then
      if m.inBounds.connections.length = 1 then m.inBounds.giveUp else m.inBounds.advance
    else m.inBounds

def exit (m : Manager) : Manager := { m with farm := m.farm.stop, running := false }

def attempt (m : Manager) : Manager := { m with connectionAttempt := m.connectionAttempt + 1 }

/-- The second half: the URI for a new client, and whether the reconnect timer is waited for. -/
def reconnect (S : Settings) (uris : Nat → Uri) (m : Manager) : Option (Manager × Option (Nat × Bool)) :=
  if m.connections.isEmpty then some (m.exit, none)
  else m.active.map fun a =>
    if (uris a).host = "exit" then (m.exit, none)
    else (m.attempt, some (a, decide (1 < m.attempt.connectionAttempt ∧ 0 < S.delayBeforeRetry)))

/-- `rotateConnect` while the client is not connected. -/
def rotateConnect (S : Settings) (uris : Nat → Uri) (m : Manager) : Option (Manager × Option (Nat × Bool)) :=
  (m.select S uris).bind (reconnect S uris)

/-- `failovertimer_elapsed`, and whether the client is to be disconnected. -/
def failovertimerElapsed (m : Manager) : Manager × Bool :=
  if m.running ∧ m.activeConnectionIdx ≠ 0 then
    ({ m with
      activeConnectionIdx := 0
      connectionAttempt := 0
      connectionSwitches := m.connectionSwitches + 1 }, true)
  else (m, false)

/-! ## The client's handlers -/

def minute : Nat := 60000000000

def spinUp (f : Farm) : Farm := if !f.isMining then f.start else if f.paused then f.resume else f

/-- `random` is drawn if the farm shuffles for every session. -/
def onConnected (S : Settings) (now : Nat) (random : UInt64) (m : Manager) : Manager := { m with
  connectionAttempt := 0
  currentWp := { m.currentWp with job := "", header := .zero 32 }
  failovertimer :=
    if m.activeConnectionIdx ≠ 0 ∧ S.poolFailoverTimeout ≠ 0 then some (now + S.poolFailoverTimeout * minute) else none
  farm := spinUp (if m.farm.ergodicity = 1 then m.farm.shuffle random else m.farm)
  asyncPending := false }

/-- The posting of `rotateConnect` apart. -/
def onDisconnected (stopping : Bool) (m : Manager) : Manager :=
  let m := { m with currentWp := { m.currentWp with header := .zero 32 }, failovertimer := none }
  if stopping then { m with farm := m.farm.stop, running := false }
  else { m with asyncPending := true, farm := m.farm.pause }

def newEpoch (mode : Nat) (wp : WorkPackage) (m : Manager) : Bool :=
  m.currentWp.epoch = -1 ||
    if mode = 3 then wp.epoch ≠ m.currentWp.epoch else wp.seed ≠ m.currentWp.seed

def withEpoch (S : Settings) (mode : Nat) (wp : WorkPackage) (m : Manager) : WorkPackage :=
  if m.newEpoch mode wp then
    if wp.epoch = -1 then
      { wp with epoch := if 0 ≤ wp.block then wp.block / 30000 else S.findEpochNumber wp.seed }
    else wp
  else { wp with epoch := m.currentWp.epoch }

/-- `PoolManager::showMiningAt`, the output apart. -/
def showMiningAt (m : Manager) : Except StdException Unit :=
  if m.currentWp.header = .zero 32 then .ok () else (getHashesToTarget m.currentWp.boundary).map fun _ => ()

/-- `onWorkReceived` as far as `showMiningAt`. -/
def taking (S : Settings) (mode : Nat) (wp : WorkPackage) (m : Manager) : Manager := { m with
  currentWp := m.withEpoch S mode wp
  epochChanges := if m.newEpoch mode wp then m.epochChanges + 1 else m.epochChanges }

def newDiffOrEpoch (mode : Nat) (wp : WorkPackage) (m : Manager) : Bool :=
  wp.boundary ≠ m.currentWp.boundary || m.newEpoch mode wp

/-- Where `showMiningAt` throws the farm is not reached; where the farm's segment width is
    undefined it keeps what it had. -/
def onWorkReceived (S : Settings) (mode : Nat) (random : UInt64) (wp : WorkPackage) (m : Manager) : Manager :=
  if wp.header = .zero 32 then m
  else if m.newDiffOrEpoch mode wp && !(m.taking S mode wp).showMiningAt.isOk then m.taking S mode wp
  else { m.taking S mode wp with
    farm := ((m.farm.setWork (m.withEpoch S mode wp) random).map (·.1)).getD m.farm }

theorem showMiningAt_isOk_iff {m : Manager} : m.showMiningAt.isOk = true ↔ m.currentWp.HasBoundary := by
  have hmap (e : Except StdException Rat) : (e.map fun _ => ()).isOk = e.isOk := by cases e <;> rfl
  unfold showMiningAt
  split
  · rename_i hvoid
    exact iff_of_true rfl fun hheader => absurd hvoid hheader
  · rename_i hheader
    rw [hmap, getHashesToTarget_isOk_iff, WorkPackage.HasBoundary, imp_iff_right hheader]

theorem withEpoch_eq (S : Settings) (mode : Nat) (wp : WorkPackage) (m : Manager) :
    ∃ epoch, m.withEpoch S mode wp = { wp with epoch } := by
  unfold withEpoch
  split
  · split
    · exact ⟨_, rfl⟩
    · exact ⟨_, rfl⟩
  · exact ⟨_, rfl⟩

theorem taking_hasBoundary (S : Settings) (mode : Nat) (m : Manager) {wp : WorkPackage} :
    (m.taking S mode wp).currentWp.HasBoundary ↔ wp.HasBoundary := by
  obtain ⟨epoch, hepoch⟩ := m.withEpoch_eq S mode wp
  show (m.withEpoch S mode wp).HasBoundary ↔ _
  rw [hepoch]
  rfl

/-- No package without a boundary has been taken. -/
def HasTarget (m : Manager) : Prop := m.currentWp.epoch = -1 ∨ m.currentWp.boundary ≠ .zero 32

/-- Then a package without one is shown, whatever epoch it is of. -/
theorem HasTarget.newDiffOrEpoch {mode : Nat} {wp : WorkPackage} {m : Manager} (h : m.HasTarget)
    (hwp : wp.boundary = .zero 32) : m.newDiffOrEpoch mode wp = true := by
  rw [Manager.newDiffOrEpoch, newEpoch]
  rcases h with h | h
  · simp [h]
  · simp [hwp, h.symm]

end Manager

/-! ## What the methods do -/

section

variable {S : Settings} {uris : Nat → Uri} {m : Manager} {idx : Nat}

def Manager.removed (m : Manager) (idx : Nat) : Manager := { m with
  connections := m.connections.eraseIdx idx
  activeConnectionIdx := if idx < m.activeConnectionIdx then m.activeConnectionIdx - 1 else m.activeConnectionIdx }

def Manager.switchedTo (m : Manager) (idx : Nat) : Manager := { m with
  asyncPending := true
  connectionSwitches := m.connectionSwitches + 1
  activeConnectionIdx := idx
  connectionAttempt := 0 }

theorem removeConnection_exec : (removeConnection idx).exec m =
    if m.asyncPending then (.error "Outstanding operations. Retry ...", m)
    else if m.connections.length ≤ idx then (.error "Index out-of bounds.", m)
    else if idx = m.activeConnectionIdx then (.error "Can't remove active connection", m)
    else (.ok (), m.removed idx) := by
  rw [removeConnection, Prog.exec_bind_ok (Prog.exec_get m)]
  unfold when
  split
  · rfl
  · split
    · rfl
    · split
      · rfl
      · unfold Manager.removed
        split <;> rfl

theorem setActiveConnectionCommon_exec : (setActiveConnectionCommon idx).exec m =
    if m.asyncPending then (.error "Outstanding operations. Retry ...", m)
    else if idx ≠ m.activeConnectionIdx then (.ok true, m.switchedTo idx)
    else (.ok false, m) := by
  rw [setActiveConnectionCommon, Prog.exec_bind_ok (Prog.exec_get m)]
  unfold when
  split
  · rfl
  · rename_i hpending
    have hsame : ({ m with asyncPending := false } : Manager) = m := by
      rw [← Bool.eq_false_of_not_eq_true hpending]
    split
    · rfl
    · exact congrArg (Prod.mk (Except.ok false : Except String Bool)) hsame

theorem setActiveConnection_exec : (setActiveConnection idx).exec m =
    if m.connections.length ≤ idx then (.error "Index out-of bounds.", m)
    else (setActiveConnectionCommon idx).exec m := by
  rw [setActiveConnection, Prog.exec_bind_ok (Prog.exec_get m)]
  unfold when
  split <;> rfl

theorem setActiveConnectionUri_exec (connstring : String) : (setActiveConnectionUri S connstring).exec m =
    match m.connections.findIdx? fun a => iequals (S.str a) connstring with
    | some idx => (setActiveConnectionCommon idx).exec m
    | none => (.error "Not found.", m) := by
  rw [setActiveConnectionUri, Prog.exec_bind_ok (Prog.exec_get m)]
  split <;> rfl

/-- A method that throws has changed nothing. -/
theorem addConnection_throws {uri : Except String Nat} {what : String} {n : Manager}
    (h : (addConnection uri).exec m = (.error what, n)) : n = m := by
  cases uri with
  | error _ =>
    cases h
    rfl
  | ok _ => cases h

theorem removeConnection_throws {what : String} {n : Manager} (h : (removeConnection idx).exec m = (.error what, n)) :
    n = m := by
  rw [removeConnection_exec] at h
  split_ifs at h <;> first | exact (congrArg Prod.snd h).symm | cases h

theorem setActiveConnectionCommon_throws {what : String} {n : Manager}
    (h : (setActiveConnectionCommon idx).exec m = (.error what, n)) : n = m := by
  rw [setActiveConnectionCommon_exec] at h
  split at h
  · cases h
    rfl
  · split at h <;> cases h

theorem setActiveConnection_throws {what : String} {n : Manager}
    (h : (setActiveConnection idx).exec m = (.error what, n)) : n = m := by
  rw [setActiveConnection_exec] at h
  split at h
  · cases h
    rfl
  · exact setActiveConnectionCommon_throws h

theorem setActiveConnectionUri_throws {connstring what : String} {n : Manager}
    (h : (setActiveConnectionUri S connstring).exec m = (.error what, n)) : n = m := by
  rw [setActiveConnectionUri_exec] at h
  split at h
  · exact setActiveConnectionCommon_throws h
  · cases h
    rfl

/-- A successful call selects an entry of the list, while nothing is pending. -/
theorem setActiveConnectionCommon_ok {n : Manager} {disconnects : Bool}
    (h : (setActiveConnectionCommon idx).exec m = (.ok disconnects, n)) :
    m.asyncPending = false ∧ (idx ≠ m.activeConnectionIdx ∧ disconnects = true ∧ n = m.switchedTo idx ∨
      idx = m.activeConnectionIdx ∧ disconnects = false ∧ n = m) := by
  rw [setActiveConnectionCommon_exec] at h
  split at h
  · cases h
  · rename_i hpending
    refine ⟨Bool.eq_false_of_not_eq_true hpending, ?_⟩
    split at h
    · cases h
      exact .inl ⟨‹_›, rfl, rfl⟩
    · cases h
      exact .inr ⟨not_not.mp ‹_›, rfl, rfl⟩

/-! ## What `rotateConnect` selects -/

/-- Erasing another entry and moving the index with the list leaves the entry at the index. -/
theorem removed_active (h : idx ≠ m.activeConnectionIdx) : (m.removed idx).active = m.active := by
  simp only [Manager.active, Manager.removed, List.getElem?_eraseIdx]
  split_ifs with h1 h2 h3
  · omega
  · congr 1
    omega
  · rfl
  · omega

def Manager.next? (m : Manager) : Option Nat :=
  if m.connections.length = 1 then none
  else m.connections[(m.activeConnectionIdx + 1) % m.connections.length]?

theorem succ_mod {i n : Nat} (h : i < n) : (i + 1) % n = if n ≤ i + 1 then 0 else i + 1 := by
  split
  · rw [show i + 1 = n by omega, Nat.mod_self]
  · exact Nat.mod_eq_of_lt (by omega)

theorem advance_active (h : m.activeConnectionIdx < m.connections.length) (h1 : m.connections.length ≠ 1) :
    m.advance.active = m.next? := by
  rw [Manager.active, Manager.next?, if_neg h1, succ_mod h]
  rfl

theorem discard_active (h : m.activeConnectionIdx < m.connections.length) : m.discard.active = m.next? := by
  have hlength := List.length_eraseIdx_of_lt h
  simp only [Manager.active, Manager.next?, Manager.discard, hlength]
  by_cases h1 : m.connections.length = 1
  · rw [if_pos h1, List.getElem?_eq_none (by rw [hlength]; omega)]
  · rw [if_neg h1, succ_mod h, List.getElem?_eraseIdx]
    by_cases hlast : m.connections.length ≤ m.activeConnectionIdx + 1
    · have hwrap : m.connections.length - 1 ≤ m.activeConnectionIdx := by omega
      have hpos : 0 < m.activeConnectionIdx := by omega
      simp only [hwrap, hlast, hpos, if_true]
    · have hwrap : ¬ m.connections.length - 1 ≤ m.activeConnectionIdx := by omega
      simp only [hwrap, hlast, if_false, lt_irrefl]

def Manager.Bounded (m : Manager) : Prop :=
  m.connections = [] ∧ m.activeConnectionIdx = 0 ∨ m.activeConnectionIdx < m.connections.length

/-- The ways in which the first half of `rotateConnect` ends, when the entry `a` is active. -/
inductive Selected (S : Settings) (uris : Nat → Uri) (m : Manager) (a : Nat) : Manager → Prop
  | keep (h : (uris a).unrecoverable = false) (ht : m.connectionAttempt < S.connectionMaxRetries) :
    Selected S uris m a m
  | discard (h : (uris a).unrecoverable = true) : Selected S uris m a m.discard
  | giveUp (h : (uris a).unrecoverable = false) (ht : S.connectionMaxRetries ≤ m.connectionAttempt)
    (h1 : m.connections.length = 1) : Selected S uris m a m.giveUp
  | advance (h : (uris a).unrecoverable = false) (ht : S.connectionMaxRetries ≤ m.connectionAttempt)
    (h1 : m.connections.length ≠ 1) : Selected S uris m a m.advance

theorem select_cases (uris : Nat → Uri) (h : m.activeConnectionIdx < m.connections.length) :
    ∃ a n, m.active = some a ∧ m.select S uris = some n ∧ Selected S uris m a n := by
  have hin : m.inBounds = m := if_neg (by omega)
  have hactive : m.active = some m.connections[m.activeConnectionIdx] := List.getElem?_eq_getElem h
  have hselect : m.select S uris = some (
      if (uris m.connections[m.activeConnectionIdx]).unrecoverable then m.discard
      else if S.connectionMaxRetries ≤ m.connectionAttempt then
        if m.connections.length = 1 then m.giveUp else m.advance
      else m) := by
    rw [Manager.select, hin, hactive]
    rfl
  refine ⟨_, _, hactive, hselect, ?_⟩
  split
  case isTrue hmark => exact .discard hmark
  case isFalse hmark =>
    have hrecoverable := Bool.eq_false_of_not_eq_true hmark
    split
    · split
      · exact .giveUp hrecoverable ‹_› ‹_›
      · exact .advance hrecoverable ‹_› ‹_›
    · exact .keep hrecoverable (by omega)

theorem Selected.bounded {a : Nat} {n : Manager} (h : m.activeConnectionIdx < m.connections.length)
    (hs : Selected S uris m a n) : n.Bounded := by
  have hlength := List.length_eraseIdx_of_lt h
  cases hs with
  | keep => exact .inr h
  | discard =>
    simp only [Manager.Bounded, Manager.discard, hlength]
    split
    · by_cases h1 : m.connections.length = 1
      · exact .inl ⟨List.length_eq_zero_iff.mp (by omega), rfl⟩
      · exact .inr (by omega)
    · exact .inr (by omega)
  | giveUp _ _ h1 =>
    refine .inl ⟨List.length_eq_zero_iff.mp ?_, show m.activeConnectionIdx = 0 by omega⟩
    simp only [Manager.giveUp]
    omega
  | advance =>
    refine .inr ?_
    simp only [Manager.advance]
    split <;> omega

/-- What `rotateConnect` does: the manager stops, or an entry is attempted. -/
inductive Rotated (S : Settings) (uris : Nat → Uri) (n : Manager) : Manager → Option (Nat × Bool) → Prop
  | exit (h : n.connections = [] ∨ ∃ b, n.active = some b ∧ (uris b).host = "exit") : Rotated S uris n n.exit none
  | attempt {b : Nat} (h : n.active = some b) (hhost : (uris b).host ≠ "exit") :
    Rotated S uris n n.attempt (some (b, decide (1 < n.connectionAttempt + 1 ∧ 0 < S.delayBeforeRetry)))

theorem rotateConnect_cases (h : m.activeConnectionIdx < m.connections.length) :
    ∃ a n m' choice, m.active = some a ∧ Selected S uris m a n ∧ m.rotateConnect S uris = some (m', choice) ∧
      Rotated S uris n m' choice := by
  obtain ⟨a, n, ha, hselect, hselected⟩ := select_cases (S := S) uris h
  have hrotate : m.rotateConnect S uris = n.reconnect S uris := by rw [Manager.rotateConnect, hselect]; rfl
  rcases hselected.bounded h with ⟨hempty, -⟩ | hlt
  · exact ⟨a, n, n.exit, none, ha, hselected, by rw [hrotate, Manager.reconnect, hempty]; rfl, .exit (.inl hempty)⟩
  · have hactive : n.active = some n.connections[n.activeConnectionIdx] := List.getElem?_eq_getElem hlt
    have hne : n.connections.isEmpty = false := by
      cases hn : n.connections with
      | nil => simp [hn] at hlt
      | cons => rfl
    have hreconnect : n.reconnect S uris = n.active.map fun a =>
        if (uris a).host = "exit" then (n.exit, none)
        else (n.attempt, some (a, decide (1 < n.attempt.connectionAttempt ∧ 0 < S.delayBeforeRetry))) := by
      rw [Manager.reconnect, hne]
      rfl
    rw [hactive] at hreconnect
    by_cases hhost : (uris n.connections[n.activeConnectionIdx]).host = "exit"
    · exact ⟨a, n, n.exit, none, ha, hselected, by rw [hrotate, hreconnect, Option.map_some, if_pos hhost],
        .exit (.inr ⟨_, hactive, hhost⟩)⟩
    · exact ⟨a, n, n.attempt, _, ha, hselected, by rw [hrotate, hreconnect, Option.map_some, if_neg hhost]; rfl,
        .attempt hactive hhost⟩

theorem rotated_of_rotateConnect {m' : Manager} {choice : Option (Nat × Bool)}
    (h : m.activeConnectionIdx < m.connections.length) (hm : m.rotateConnect S uris = some (m', choice)) :
    ∃ a n, m.active = some a ∧ Selected S uris m a n ∧ Rotated S uris n m' choice := by
  obtain ⟨a, n, m₁, choice₁, ha, hselected, hrotate, hrotated⟩ := rotateConnect_cases h
  cases hm.symm.trans hrotate
  exact ⟨a, n, ha, hselected, hrotated⟩

/-- Selecting is about the list, the index and the counters. -/
theorem Selected.flags {a : Nat} {n : Manager} (h : Selected S uris m a n) :
    n.asyncPending = m.asyncPending ∧ n.failovertimer = m.failovertimer ∧ n.running = m.running := by
  cases h <;> exact ⟨rfl, rfl, rfl⟩

/-- A failover selects the first entry. -/
theorem failovertimerElapsed_of (h : m.failovertimerElapsed.2 = true) : m.failovertimerElapsed.1 = { m with
    activeConnectionIdx := 0, connectionAttempt := 0, connectionSwitches := m.connectionSwitches + 1 } := by
  unfold Manager.failovertimerElapsed at h ⊢
  split at h
  case isTrue hrun => rw [if_pos hrun]
  case isFalse => cases h

end

end CoreMiner.Pools
