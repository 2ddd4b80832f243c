import CoreMiner.Lib.Prog
import CoreMiner.Lib.Recorder
import CoreMiner.Lib.Digits
import CoreMiner.Lib.CheckDigits
import CoreMiner.Lib.Arcs
import CoreMiner.Lib.Lines
import CoreMiner.Lib.LineLoop
import CoreMiner.Lib.Text
import CoreMiner.Lib.Batches
import CoreMiner.Lib.Past
import CoreMiner.Lib.RoundRobin
import CoreMiner.Lib.Tiles
import CoreMiner.Lib.ThreeTerm
import CoreMiner.Lib.Sponge
import CoreMiner.Lib.Keccak
import CoreMiner.DevCore.Hex
import CoreMiner.DevCore.Arith
import CoreMiner.DevCore.BigEndian
import CoreMiner.DevCore.HexCodec
import CoreMiner.DevCore.Json
import CoreMiner.DevCore.Worker
import CoreMiner.EthCore.Farm
import CoreMiner.EthCore.Pausing
import CoreMiner.EthCore.Telemetry
import CoreMiner.EthashCpu.Picosha3
import CoreMiner.EthashCpu.Sha3
import CoreMiner.EthashCpu.Search
import CoreMiner.EthashCpu.Seed
import CoreMiner.EthashCpu.ShareTest
import CoreMiner.EthashCpu.Switching
import CoreMiner.EthashCpu.DagLoad
import CoreMiner.EthashCpu.Dataset
import CoreMiner.Stratum.Pleas
import CoreMiner.Stratum.Session
import CoreMiner.Stratum.State
import CoreMiner.Stratum.Process
import CoreMiner.Stratum.Receive
import CoreMiner.Stratum.Boundaries
import CoreMiner.Stratum.Connection
import CoreMiner.Stratum.System
import CoreMiner.Stratum.Frame
import CoreMiner.Stratum.Transmission
import CoreMiner.Stratum.Extranonce
import CoreMiner.Stratum.ExtranonceLengths
import CoreMiner.Stratum.SessionUse
import CoreMiner.Stratum.Quiet
import CoreMiner.Stratum.Jobs
import CoreMiner.Stratum.Exceptions
import CoreMiner.Stratum.Snapshot
import CoreMiner.Stratum.BlockNumbers
import CoreMiner.Stratum.Segmentation
import CoreMiner.Stratum.Moves
import CoreMiner.Stratum.Attempts
import CoreMiner.Stratum.Lenient
import CoreMiner.Stratum.Disconnect
import CoreMiner.Stratum.Watchdog
import CoreMiner.Stratum.Autodetect
import CoreMiner.Stratum.Negotiation
import CoreMiner.Stratum.LoginTimeout
import CoreMiner.Stratum.Announcements
import CoreMiner.Stratum.ParameterUpdates
import CoreMiner.Stratum.Intake
import CoreMiner.Stratum.Reading
import CoreMiner.Stratum.JobParameters
import CoreMiner.Stratum.Receptive
import CoreMiner.Stratum.Posters
import CoreMiner.Stratum.Phases
import CoreMiner.Stratum.Endpoints
import CoreMiner.Stratum.Reports
import CoreMiner.Stratum.Outgoing
import CoreMiner.Stratum.Verdicts
import CoreMiner.Getwork.Client
import CoreMiner.Getwork.Moves
import CoreMiner.Getwork.Polling
import CoreMiner.Getwork.Replies
import CoreMiner.Getwork.Decoding
import CoreMiner.Getwork.Verdicts
import CoreMiner.Pools.Uri
import CoreMiner.Pools.PercentEscapes
import CoreMiner.Pools.Credentials
import CoreMiner.Pools.Manager
import CoreMiner.Pools.System
import CoreMiner.Pools.Targets
import CoreMiner.Pools.Difficulty
import CoreMiner.Pools.Moves
import CoreMiner.Pools.Active
import CoreMiner.Pools.Decisions
import CoreMiner.Pools.Rotation
import CoreMiner.Pools.Tried
import CoreMiner.Pools.Shares
import CoreMiner.Pools.Stop
import CoreMiner.Pools.Sessions
import CoreMiner.Pools.ValidShares
import CoreMiner.Pools.Accounting
import CoreMiner.Api.Stats
import CoreMiner.Api.Segments
import CoreMiner.Api.Scaling
import CoreMiner.Api.Requests
import CoreMiner.Api.Session
import CoreMiner.Api.Responses
import CoreMiner.Api.Access
import CoreMiner.Api.Exchange
import CoreMiner.Api.Server
import CoreMiner.Api.Isolation
import CoreMiner.Scripts.Wallet
