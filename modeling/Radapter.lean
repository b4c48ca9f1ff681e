import Radapter.Text
import Radapter.Variant
import Radapter.Flatten
import Radapter.FlattenPaths
import Radapter.FlattenExact
import Radapter.Unflatten
import Radapter.Library.Splitter
import Radapter.Library.Runs
import Radapter.Library.Changes
import Radapter.Library.Results
import Radapter.Wire.Frame
import Radapter.Wire.Drain
import Radapter.Wire.Chunks
import Radapter.Local.Client
import Radapter.Modbus.Registers
import Radapter.Modbus.RoundTrip
import Radapter.Modbus.Poll
import Radapter.Modbus.Device
import Radapter.Modbus.DeviceSteps
import Radapter.Modbus.DeviceRuns
import Radapter.Modbus.DeviceCalls
import Radapter.Modbus.DevicePlaces
import Radapter.Modbus.Master
import Radapter.Modbus.MasterSteps
import Radapter.Modbus.LogHandler
import Radapter.Modbus.WriteOrder
import Radapter.Modbus.WriteAttempts
import Radapter.Modbus.WriteRetries
import Radapter.Modbus.WriteValue
import Radapter.Modbus.Prepare
import Radapter.Wire.Slip
import Radapter.Wire.SlipWrite
import Radapter.Wire.SlipRuns
import Radapter.Wire.Process
import Radapter.Wire.Peer
import Radapter.Listeners.CallAll
import Radapter.Listeners.Serves
import Radapter.Unicode
import Radapter.UnflattenOrder
import Radapter.UnflattenText
import Radapter.UnflattenKeys
import Radapter.UnflattenRebuild
import Radapter.UnflattenExact
import Radapter.UnflattenLevels
import Radapter.Library.Assoc
import Radapter.Lua.Value
import Radapter.Lua.Convert
import Radapter.Lua.Reorder
import Radapter.Lua.Levels
import Radapter.Lua.LevelsBack
import Radapter.Lua.Forwarded
import Radapter.Lua.RoundTrip
import Radapter.Lua.Strings
import Radapter.Lua.Leaves
import Radapter.Lua.Survive
import Radapter.Lua.SurviveExact
import Radapter.Library.Nested
import Radapter.Lazy.View
import Radapter.Lazy.Paths
import Radapter.Lazy.Indices
import Radapter.Lazy.Get
import Radapter.Lazy.Session
import Radapter.Lazy.Current
import Radapter.Lazy.Follow
import Radapter.Lazy.Pairs
import Radapter.Lazy.PairsAgree
import Radapter.Lazy.PairsWrites
import Radapter.Lazy.Written
import Radapter.Lazy.Forward
import Radapter.Can.Flushed
import Radapter.Cyphal.Worker
import Radapter.Cyphal.Subscriptions
import Radapter.Cyphal.Tables
import Radapter.Cyphal.TableSteps
import Radapter.Cyphal.Requests
import Radapter.Cyphal.Refused
import Radapter.Cyphal.Extents
import Radapter.Cyphal.TransferIds
import Radapter.Cyphal.Transmit
import Radapter.Cyphal.Dispatch
import Radapter.Cyphal.Types
import Radapter.Cyphal.Conversion
import Radapter.Cyphal.Fields
import Radapter.Cyphal.StructRoundTrip
import Radapter.Cyphal.Numbers
import Radapter.Cyphal.Messages
import Radapter.Redis.Stream
import Radapter.Redis.Chains
import Radapter.Redis.Positions
import Radapter.Redis.Top
import Radapter.Fibers.Pool
import Radapter.Fibers.Lifecycle
import Radapter.Fibers.Law
import Radapter.Async.Promise
import Radapter.Async.Calls
import Radapter.Async.Once
import Radapter.Async.Gather
import Radapter.Service.Table
import Radapter.Service.Calls
import Radapter.Service.Sweep
import Radapter.Pipes.Chain
import Radapter.Pipes.Listening
import Radapter.Pipes.Failed
import Radapter.Branch.Separator
import Radapter.Branch.Pair
import Radapter.Branch.Joined
import Radapter.Branch.GetSet
import Radapter.Graph.Value
import Radapter.Graph.Get
import Radapter.Graph.Set
import Radapter.Graph.Convert
import Radapter.Graph.Depth
import Radapter.Library.KeyTree
import Radapter.Graph.Overlay
import Radapter.Graph.Unfold
import Radapter.Graph.Merge
import Radapter.Branch.Nested
import Radapter.Library.Scoped
import Radapter.Scopes.Sender
import Radapter.Scopes.Require
import Radapter.Library.Histories
import Radapter.Tags.Names
import Radapter.Tags.Registry
import Radapter.Tags.Told
import Radapter.Tags.Live
import Radapter.Websocket.Routing
import Radapter.Websocket.Received
import Radapter.Merge.Equality
import Radapter.Merge.Patch
import Radapter.Merge.Count
import Radapter.Merge.Diff
import Radapter.Redis.Cache
import Radapter.Library.Grammar
import Radapter.Redis.Format
import Radapter.Redis.Reply
import Radapter.Redis.Exec
import Radapter.Configurator.Context
import Radapter.Scada.Resolve
import Radapter.Scada.Builds
import Radapter.Configurator.Rename
import Radapter.Configurator.Pipes
import Radapter.Modbus.Rounds
import Radapter.Modbus.Slave
import Radapter.Modbus.SlaveReports
import Radapter.Library.Extents
import Radapter.Modbus.Overlaps
import Radapter.Modbus.Requests
import Radapter.Modbus.Ranges
import Radapter.Modbus.Queries
import Radapter.Modbus.ReadOnly
import Radapter.Modbus.Validators
import Radapter.Library.Crc
import Radapter.Wire.Checksum
import Radapter.Wire.Line
import Radapter.Wire.Overlong
import Radapter.Wire.Malformed
import Radapter.Library.Parts
import Radapter.Library.Sorted
import Radapter.Config.Conf
import Radapter.Config.Template
import Radapter.Config.Restore
import Radapter.Config.Trace
import Radapter.Config.Schema
import Radapter.Config.Numbers
import Radapter.Config.Settings
import Radapter.Config.Guarantees
import Radapter.Fibers.Frames
import Radapter.Instance.Shutdown
import Radapter.Instance.Sequence
import Radapter.Instance.Moves
import Radapter.Instance.Done
import Radapter.Modbus.Loopback
import Radapter.Modbus.LoopbackReports
import Radapter.Modbus.ReadBack
import Radapter.Library.Slots
import Radapter.Registry.Handles
import Radapter.Registry.Owners
import Radapter.Registry.Plain
import Radapter.Registry.Refined
