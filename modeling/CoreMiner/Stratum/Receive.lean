/-
  CoreMiner.Stratum.Receive — what arrives on the socket (`XcbStratumClient.cpp`:
  `onRecvSocketDataCompleted`).

  A transmission is appended to `m_message` and the complete lines are taken off its front
  one by one. Each line is parsed outside any handler and processed inside one that
  catches `std::exception`s. A job signalled by some line is dispatched once, after the
  last one.
-/

import CoreMiner.Lib.Lines
import CoreMiner.Stratum.Process
import Mathlib.Data.List.DropRight

namespace CoreMiner.Stratum

open DevCore EthCore Lib
open Prog (when catching)

variable (E : Env)

def trim (line : List Char) : List Char := (line.dropWhile isSpace).rdropWhile isSpace

def processLine (line : List Char) : M Unit := do
  match ← raise (E.parse line) with
  | none => pure ()
  | some jMsg => catching Stop.isStd (processResponse E jMsg) (pure ())

/-- The `while (offset != string::npos)` loop; `fuel` bounds its iterations. -/
def lineLoop : Nat → M Unit
  | 0 => pure ()
  | fuel + 1 => do
    let s ← get
    match s.message.findIdx? (· = '\n') with
    | none => pure ()
    | some offset =>
      when (0 < offset) do
        let line := trim (s.message.take offset)
        when (!line.isEmpty) (processLine E line)
      modify fun s => { s with message := s.message.drop (offset + 1) }
      lineLoop fuel

/-- Append what was received and go through the lines. Every iteration erases a character,
    so the loop ends before its fuel does. -/
def processTransmission (rxMessage : List Char) : M Unit := do
  modify fun s => { s with message := s.message ++ rxMessage, newjobprocessed := false }
  let s ← get
  lineLoop E (s.message.length + 1)

/-- `m_onWorkReceived`: the pool manager takes a package over and shows its difficulty, a quotient
    by its boundary, outside any handler (`Pools.Manager.onWorkReceived`). -/
def onWorkReceived (wp : WorkPackage) : M Unit := do
  emit (.onWorkReceived wp)
  when (¬ wp.HasBoundary) (throw (.exception .runtimeError))

theorem wp_onWorkReceived {w : WorkPackage} {Q : Unit → St → Prop} {X : Stop → St → Prop} {s : St} :
    Prog.wp (onWorkReceived w) Q X s ↔
      if w.HasBoundary then Q () { s with log := .onWorkReceived w :: s.log }
      else X (.exception .runtimeError) { s with log := .onWorkReceived w :: s.log } := by
  rw [onWorkReceived, emit, Prog.wp_bind, Prog.wp_modify, Prog.wp_when]
  by_cases h : w.HasBoundary
  · simp [h]
  · simp [h]

/-- `none` is an error code. -/
def onRecvSocketDataCompleted (data : Option (List Char)) : M Unit := do
  match data with
  | some rxMessage =>
    processTransmission E rxMessage
    let s ← get
    when s.newjobprocessed (onWorkReceived s.current)
    when s.isConnected recvSocketData
  | none =>
    let s ← get
    when s.isConnected do
      when s.authpending (modifyConn Uri.markUnrecoverable)
      post .disconnect

end CoreMiner.Stratum
