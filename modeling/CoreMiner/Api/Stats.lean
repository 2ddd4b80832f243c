/-
  CoreMiner.Api.Stats — what the API tells about the miner (`ApiServer.cpp`: `getMinerStat1`,
  `getMinerStatDetail`, `getMinerStatDetailPerMiner`, `getHttpMinerStatDetail`, and the getters
  of `Farm.h`, `Farm.cpp`, `Miner.cpp`, `PoolManager.cpp` and `CommonData.cpp` behind them).

  A `Node` is the process around the API: the pool manager and the farm, the telemetry, the
  log options, and what was asked of the machine. The getters read it and return a value or
  stop: with an exception, or where a null pointer is followed or an array left. Numbers are
  exact; the texts the streams and the JSON library print for them are given.
-/

import CoreMiner.DevCore.Json
import CoreMiner.EthCore.Telemetry
import CoreMiner.Pools.Manager
import CoreMiner.Pools.Uri

namespace CoreMiner.EthCore

def MinerPauseEnum.reason : MinerPauseEnum → String
  | .overHeating => "Overheating"
  | .apiRequest => "Api request"
  | .farmPaused => "Farm suspended"
  | .insufficientMemory => "Insufficient GPU memory"
  | .initEpochError => "Epoch initialization error"

/-- `Miner::pausedString`: the reasons in the order of the enumeration. -/
def Miner.pausedString (m : Miner) : String :=
  let all : List MinerPauseEnum := [.overHeating, .apiRequest, .farmPaused, .insufficientMemory, .initEpochError]
  "; ".intercalate ((all.filter (· ∈ m.pauseFlags)).map MinerPauseEnum.reason)

structure DeviceDescriptor where
  uniqueId : String
  totalMemory : Nat

structure HwSensors where
  tempC : Int := 0
  fanP : Int := 0
  powerW : Rat := 0

structure TelemetryAccount where
  hashrate : Rat := 0
  sensors : HwSensors := {}
  solutions : SolutionAccount := {}
  /-- When a solution was counted last. -/
  tstamp : Nat := 0

/-- `TelemetryType`; the clock counts nanoseconds. -/
structure TelemetryType where
  start : Nat
  farm : TelemetryAccount := {}
  miners : List TelemetryAccount := []

end CoreMiner.EthCore

namespace CoreMiner.Api

open DevCore EthCore Lib
open Pools (Manager Settings)
open Stratum (Uri)

inductive Stop where
  /-- An exception derived from `std::exception`, with its text. -/
  | exception (what : String)
  | undefined
  deriving DecidableEq, Repr

structure Env where
  /-- `Reader::parse`: a value, or the formatted error messages; it can also throw. -/
  parse : List Char → Except StdException (Except String Json)
  /-- `Json::writeString` without indentation. -/
  writeString : Json → List Char
  what : StdException → String
  fixed : Nat → Rat → String
  /-- The text the JSON library prints for a `double`. -/
  valueToString : Rat → String
  projectNameWithVersion : String
  /-- `gethostname`, unless it fails. -/
  hostName : Option String
  settings : Settings
  uris : Nat → Uri
  fromString : List Char → Option Pools.Address
  /-- The object a text is made into. -/
  object : String → Nat

def Env.newUri (E : Env) (text : String) : Except String Nat :=
  (Pools.construct E.fromString text.toList false).map fun _ => E.object text

structure Moment where
  now : Nat
  /-- The number `Farm::shuffle` draws. -/
  random : UInt64
  /-- A reboot script is there and was spawned. -/
  spawns : Bool
  /-- What the pool client's `disconnect` throws, if it does. -/
  disconnectThrows : Option String

structure Node where
  pools : Manager
  /-- `p_client->isConnected()`; `none` is the null pointer. -/
  client : Option Bool
  /-- How often the pool client was told to disconnect. -/
  disconnects : Nat := 0
  telemetry : TelemetryType
  /-- Of each miner, by its index. -/
  descriptor : Nat → DeviceDescriptor
  logOptions : Nat
  restarts : Nat := 0
  /-- The arguments of each call of the reboot script. -/
  reboots : List (List String) := []

variable (E : Env) (m : Moment)

def Env.std {α : Type} : Except StdException α → Except Stop α := Except.mapError fun e => .exception (E.what e)

/-! ## Formats -/

def second : Nat := 1000000000

/-- The loop of `getScaledSize`, which makes at most as many turns as there are suffixes. -/
def scale (divisor : Rat) : Nat → Rat → Nat → Rat × Nat
  | 0, value, i => (value, i)
  | turns + 1, value, i => if divisor < value then scale divisor turns (value / divisor) (i + 1) else (value, i)

/-- `getScaledSize`, with the suffix; behind the last one the array of suffixes is left. -/
def getScaledSize (value divisor : Rat) (precision : Nat) (sizes : List String) : Except Stop String :=
  let (newvalue, i) := scale divisor sizes.length value 0
  match sizes[i]? with
  | some size => .ok (E.fixed precision newvalue ++ " " ++ size)
  | none => .error .undefined

def getFormattedHashes (hr : Rat) : Except Stop String := getScaledSize E hr 1000 2 ["h", "Kh", "Mh", "Gh"]

def getFormattedMemory (mem : Rat) : Except Stop String := getScaledSize E mem 1024 2 ["B", "KB", "MB", "GB"]

def double (q : Rat) : Json := .real (some q) (E.valueToString q)

def hashrateHex (hashrate : Rat) : String := toHex (UInt64.ofNat (hashrate.floor.toNat % 2 ^ 32)) .add 8

/-! ## The pool manager's and the farm's getters -/

def Node.connection (n : Node) : Except Stop Nat :=
  match n.pools.active with
  | some a => .ok a
  | none => .error .undefined

def Node.isConnected (n : Node) : Except Stop Bool :=
  match n.client with
  | some connected => .ok connected
  | none => .error .undefined

def Node.getCurrentDifficulty (n : Node) : Except StdException Rat :=
  if n.pools.currentWp.header = .zero 32 then .ok 0 else getHashesToTarget n.pools.currentWp.boundary

def Node.getConnectionsJson (n : Node) : Json :=
  match n.pools.getConnectionsJson E.settings with
  | [] => .null
  | l => .arr (l.map fun c => .obj [("index", .int c.index), ("active", .bool c.active), ("uri", .str c.uri)])

def Node.getNonceScramblerJson (n : Node) : Json := .obj [
  ("start_nonce", .str (toHex n.pools.farm.nonceScrambler .add 16)),
  ("device_width", .int n.pools.farm.nonceSegmentWidth),
  ("device_count", .int n.pools.farm.miners.length)]

/-! ## Statistics -/

def getMinerStat1 (n : Node) : Except Stop Json := do
  let a ← n.connection
  let t := n.telemetry
  let miners := t.miners
  return .arr [
    .str E.projectNameWithVersion,
    .str (toString ((m.now - t.start) / Manager.minute)),
    .str (E.fixed 0 (t.farm.hashrate / 1000) ++ ";" ++ toString t.farm.solutions.accepted ++ ";" ++
      toString t.farm.solutions.rejected),
    .str (";".intercalate (miners.map fun x => E.fixed 0 (x.hashrate / 1000))),
    .str "0;0;0",
    .str (";".intercalate (miners.map fun _ => "off")),
    .str (";".intercalate (miners.map fun x => toString x.sensors.tempC ++ ";" ++ toString x.sensors.fanP)),
    .str ((E.uris a).host ++ ":" ++ toString (E.uris a).port),
    .str (toString t.farm.solutions.failed ++ ";0" ++ ";0;0")]

def sharesJson (t : TelemetryAccount) : Json := .arr [
  .int t.solutions.accepted.toNat, .int t.solutions.rejected.toNat, .int t.solutions.failed.toNat,
  .int ((m.now - t.tstamp) / second : Nat)]

def getMinerStatDetailPerMiner (n : Node) (miner : Miner) : Except Stop Json := do
  let d := n.descriptor miner.index
  let memory ← getFormattedMemory E d.totalMemory
  let some t := n.telemetry.miners[miner.index]? | .error (.exception (E.what .outOfRange))
  let width := n.pools.farm.nonceSegmentWidth
  let gpustartnonce := Farm.segmentStart n.pools.farm.nonceScrambler width miner.index
  let hwinfo := .obj [
    ("pci", .str d.uniqueId),
    ("type", .str "CPU"),
    ("name", .str ("CPU" ++ " " ++ memory)),
    ("sensors", .arr [.int t.sensors.tempC, .int t.sensors.fanP, double E t.sensors.powerW])]
  let mininginfo := .obj [
    ("shares", sharesJson m t),
    ("paused", .bool miner.paused),
    ("pause_reason", if miner.paused then .str miner.pausedString else .null),
    ("segment", .arr [
      .str (toHex gpustartnonce .add 16), .str (toHex (Farm.segmentStart gpustartnonce width 1) .add 16)]),
    ("hashrate", .str (hashrateHex t.hashrate))]
  return .obj [("_index", .int miner.index), ("hardware", hwinfo), ("mining", mininginfo)]

def getMinerStatDetail (n : Node) : Except Stop Json := do
  let t := n.telemetry
  let hostinfo := .obj [
    ("version", .str E.projectNameWithVersion),
    ("runtime", .int ((m.now - t.start) / second : Nat)),
    ("name", (E.hostName.map Json.str).getD .null)]
  let a ← n.connection
  let connected ← n.isConnected
  let connectioninfo := .obj [
    ("uri", .str (E.settings.str a)),
    ("connected", .bool connected),
    ("switches", .int n.pools.connectionSwitches)]
  let difficulty ← E.std n.getCurrentDifficulty
  let mininginfo := .obj [
    ("hashrate", .str (hashrateHex t.farm.hashrate)),
    ("epoch", .int n.pools.currentWp.epoch),
    ("epoch_changes", .int n.pools.epochChanges),
    ("difficulty", double E difficulty),
    ("shares", sharesJson m t.farm)]
  let devices ← n.pools.farm.miners.mapM (getMinerStatDetailPerMiner E m n)
  return .obj [("devices", .arr devices), ("connection", connectioninfo), ("host", hostinfo), ("mining", mininginfo)]

/-! ## The page -/

def pageHead : String :=
  "<!doctype html>" ++ "<html lang=en>" ++ "<head>" ++ "<meta charset=utf-8>" ++
  "<meta http-equiv=\"refresh\" content=\"30\">" ++ "<title>"

def pageStyle : String :=
  "</title>" ++ "<style>" ++
  "body\x7bfont-family:-apple-system,BlinkMacSystemFont,\"Segoe UI\",Roboto," ++
  "\"Helvetica Neue\",Helvetica,Arial,sans-serif;font-size:16px;line-height:1.5;" ++
  "text-align:center;\x7d" ++
  "table,td,th\x7bborder:1px inset #000;\x7d" ++
  "table\x7bborder-spacing:0;\x7d" ++
  "td,th\x7bpadding:3px;\x7d" ++
  "tbody tr:nth-child(even)\x7bbackground-color:#f8f8f8;\x7d" ++
  "tbody tr:nth-child(odd)\x7bbackground-color:#ffffff;\x7d" ++
  ".mx-auto\x7bmargin-left:auto;margin-right:auto;\x7d" ++
  ".bg-header1\x7bbackground-color:#f0f0f0;\x7d" ++
  ".bg-header0\x7bbackground-color:#e8e8e8;\x7d" ++
  ".bg-red\x7bcolor:#f46542;\x7d" ++
  ".right\x7btext-align: right;\x7d" ++
  "</style>" ++ "<meta http-equiv=refresh content=30>" ++ "</head>" ++ "<body>" ++
  "<table class=mx-auto>" ++ "<thead>" ++ "<tr class=bg-header1>" ++ "<th colspan=9>"

def pageColumns : String :=
  "</th>" ++ "</tr>" ++ "<tr class=bg-header0>" ++ "<th>PCI</th>" ++ "<th>Device</th>" ++ "<th>Mode</th>" ++
  "<th>Paused</th>" ++ "<th class=right>Hash Rate</th>" ++ "<th class=right>Solutions</th>" ++
  "<th class=right>Temp.</th>" ++ "<th class=right>Fan %</th>" ++ "<th class=right>Power</th>" ++
  "</tr>" ++ "</thead><tbody>"

structure Totals where
  hashrate : Rat := 0
  power : Rat := 0
  solutions : UInt32 := 0

def pageRow (total : Totals) (device : Json) : Except Stop (Totals × String) := do
  let mining ← E.std (device.at_ "mining")
  let hardware ← E.std (device.at_ "hardware")
  let sensors ← E.std (hardware.at_ "sensors")
  let shares ← E.std (mining.at_ "shares")
  let hashrate ← E.std (do stoul (← (← mining.at_ "hashrate").asString))
  let power ← E.std (sensors.getIdx 2 .null)
  let solutions ← E.std (do (← shares.getIdx 0 .null).asUInt)
  let paused ← E.std (mining.at_ "paused")
  let pci ← E.std (do (← hardware.at_ "pci").asString)
  let name ← E.std (do (← hardware.at_ "name").asString)
  let mode ← E.std (do (← device.at_ "_mode").asString)
  let reason ← if paused.asBool then E.std (do (← mining.at_ "pause_reason").asString) else pure "No"
  let formatted ← getFormattedHashes E hashrate.toNat
  let accepted ← E.std (do (← shares.getIdx 0 .null).asString)
  let rejected ← E.std (do (← shares.getIdx 1 .null).asString)
  let failed ← E.std (do (← shares.getIdx 2 .null).asString)
  let tempC ← E.std (do (← sensors.getIdx 0 .null).asString)
  let fanP ← E.std (do (← sensors.getIdx 1 .null).asString)
  return ({ hashrate := total.hashrate + hashrate.toNat
            power := total.power + power.asDouble
            solutions := total.solutions + UInt32.ofNat solutions },
    "<tr" ++ (if paused.asBool then " class=\"bg-red\"" else "") ++ ">" ++
    "<td>" ++ pci ++ "</td>" ++ "<td>" ++ name ++ "</td>" ++ "<td>" ++ mode ++ "</td>" ++
    "<td>" ++ reason ++ "</td>" ++ "<td class=right>" ++ formatted ++ "</td>" ++
    "<td class=right>" ++ ("A" ++ accepted ++ ":R" ++ rejected ++ ":F" ++ failed) ++ "</td>" ++
    "<td class=right>" ++ tempC ++ "</td>" ++ "<td class=right>" ++ fanP ++ "</td>" ++
    "<td class=right>" ++ E.fixed 2 power.asDouble ++ "</td>" ++ "</tr>")

def pageRows : Totals → List Json → Except Stop (Totals × String)
  | total, [] => .ok (total, "")
  | total, device :: devices => do
    let (total, row) ← pageRow E total device
    let (total, rows) ← pageRows total devices
    return (total, row ++ rows)

def pageFoot (total : Totals) : Except Stop String := do
  let hashrate ← getFormattedHashes E total.hashrate
  return "</tbody>" ++
    "<tfoot><tr class=bg-header0><td colspan=4 class=right>Total</td><td class=right>" ++ hashrate ++
    "</td><td class=right>" ++ toString total.solutions ++ "</td><td colspan=3 class=right>" ++
    E.fixed 2 total.power ++ "</td></tfoot>" ++ "</table></body></html>"

def elements : Json → List Json
  | .arr l => l
  | _ => []

def runningTime (seconds : Nat) : String :=
  toString (seconds / 3600) ++ ":" ++ padLeft (toString (seconds % 3600 / 60)) 2 '0'

def getHttpMinerStatDetail (n : Node) : Except Stop String := do
  let jStat ← getMinerStatDetail E m n
  let host ← E.std (jStat.at_ "host")
  let connection ← E.std (jStat.at_ "connection")
  let durationSeconds ← E.std (do (← host.at_ "runtime").asUInt64)
  let name ← E.std (do (← host.at_ "name").asString)
  let version ← E.std (do (← host.at_ "version").asString)
  let uri ← E.std (do (← connection.at_ "uri").asString)
  let devices ← E.std (jStat.at_ "devices")
  let (total, rows) ← pageRows E {} (elements devices)
  let foot ← pageFoot E total
  return pageHead ++ name ++ pageStyle ++ version ++ " - " ++ runningTime durationSeconds.toNat ++
    "<br>Pool: " ++ uri ++ pageColumns ++ rows ++ foot

end CoreMiner.Api
