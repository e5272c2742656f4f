import Drv60870.Lib.Octets
import Drv60870.Lib.Str
import Drv60870.Lib.Ieee
import Drv60870.Lib.Calendar
import Drv60870.Lib.Runs
import Drv60870.Lib.Cyclic
import Drv60870.Lib.Sawtooth
import Drv60870.Lib.Framing
import Drv60870.Lib.Python
import Drv60870.Lib.Dict
import Drv60870.Lib.Glob
import Drv60870.Lib.Lines
import Drv60870.Const
import Drv60870.Common
import Drv60870.Protocol.Apdu
import Drv60870.Protocol.Codec
import Drv60870.Protocol.Slots
import Drv60870.Protocol.CodecProofs
import Drv60870.Protocol.Time
import Drv60870.Protocol.Truncation
import Drv60870.Protocol.Contained
import Drv60870.Protocol.Ranges
import Drv60870.Protocol.Agreement
import Drv60870.Protocol.Handlers
import Drv60870.Protocol.HandlersProofs
import Drv60870.Protocol.Commands
import Drv60870.Protocol.Reports
import Drv60870.Protocol.Executed
import Drv60870.Deframe
import Drv60870.EventBus
import Drv60870.LogViewer
import Drv60870.LogViewer.Follow
import Drv60870.BusClient
import Drv60870.Imit
import Drv60870.Storage.Signals
import Drv60870.Storage.Names
import Drv60870.Storage.Sendable
import Drv60870.Storage.Floats
import Drv60870.Storage.History
import Drv60870.Storage.Repeat
import Drv60870.Storage.Delivery
import Drv60870.Storage.Stale
import Drv60870.Server.Conn
import Drv60870.Server.ConnProofs
import Drv60870.Server.Sequence
import Drv60870.Server.Frames
import Drv60870.Server.Window
import Drv60870.Server.Startdt
import Drv60870.Server.Order
import Drv60870.Server.Packed
import Drv60870.Server.Drain
import Drv60870.Server.Content
import Drv60870.Server.Ledger
import Drv60870.Server.Interrogation
import Drv60870.Server.Enforced
import Drv60870.Server.Foreign
import Drv60870.Server.Registration
import Drv60870.Client.Session
import Drv60870.Client.SessionProofs
import Drv60870.Client.Schedule
import Drv60870.Client.Sequence
import Drv60870.Client.Frames
import Drv60870.Client.Content
import Drv60870.Client.Receive
import Drv60870.Client.Pool
import Drv60870.Client.Sweep
import Drv60870.Client.HistoryWriter
import Drv60870.Link.Pipe
import Drv60870.Link.Stations
import Drv60870.Link.Released
import Drv60870.Link.Delivered
import Drv60870.Link.Reported
import Drv60870.Link.Alive
import Drv60870.Link.Archived
import Drv60870.Link.InOrder
import Drv60870.Link.Rest
import Drv60870.Link.Current
import Drv60870.Server.Uninterrupted
import Drv60870.Server.InTurn
import Drv60870.Link.Network
import Drv60870.Link.Everywhere
