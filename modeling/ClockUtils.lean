import ClockUtils.Errors
import ClockUtils.Lib.CodeTree
import ClockUtils.Lib.BitPack
import ClockUtils.Lib.PriorityQueue
import ClockUtils.Compression.HuffmanBase
import ClockUtils.Compression.BuildTree
import ClockUtils.Compression.Mapping
import ClockUtils.Compression.GetChar
import ClockUtils.Compression.PrefixCode
import ClockUtils.Compression.HuffmanGeneric
import ClockUtils.Compression.HuffmanFixed
import ClockUtils.Compression.Convert
import ClockUtils.Compression.RoundTrip
import ClockUtils.Compression.FixedRoundTrip
import ClockUtils.Compression.ByteIndex
import ClockUtils.Compression.OptimalTree
import ClockUtils.Compression.FixedDepths
import ClockUtils.Compression.Acceptance
import ClockUtils.Compression.Defined
import ClockUtils.Lib.TreeHeight
import ClockUtils.Compression.WordLength
import ClockUtils.Sockets.Packet
import ClockUtils.Sockets.TcpSocket
import ClockUtils.Sockets.TcpReassembly
import ClockUtils.Sockets.TcpWrite
import ClockUtils.Sockets.TcpFailures
import ClockUtils.Sockets.UdpSocket
import ClockUtils.Sockets.UdpReassembly
import ClockUtils.Sockets.UdpLoss
import ClockUtils.Sockets.UdpBoundary
import ClockUtils.Sockets.Frames
import ClockUtils.Sockets.LengthField
import ClockUtils.Sockets.Chunking
import ClockUtils.Sockets.Reconnect
import ClockUtils.Lib.StepRun
import ClockUtils.Lib.Snapshot
import ClockUtils.Sockets.AsyncWriter
import ClockUtils.Sockets.AsyncMoves
import ClockUtils.Sockets.AsyncInvariant
import ClockUtils.Sockets.AsyncFlow
import ClockUtils.Sockets.AsyncDelivery
import ClockUtils.Sockets.AsyncProgress
import ClockUtils.Sockets.AsyncPassing
import ClockUtils.Sockets.AsyncReconnect
import ClockUtils.Sockets.Lifecycle
import ClockUtils.Sockets.LifecycleRuns
import ClockUtils.Sockets.CloseReturns
import ClockUtils.Sockets.PacketChannel
import ClockUtils.Sockets.PacketDelivery
import ClockUtils.Sockets.DatagramNetwork
import ClockUtils.Sockets.DatagramDelivery
import ClockUtils.Sockets.DatagramLoss
import ClockUtils.Sockets.StreamOperators
import ClockUtils.Lib.VectorMap
import ClockUtils.Lib.Lines
import ClockUtils.Lib.OrderedDict
import ClockUtils.Lib.DecimalStream
import ClockUtils.Lib.IntegerType
import ClockUtils.IniParser.IniParser
import ClockUtils.IniParser.Grammar
import ClockUtils.IniParser.Load
import ClockUtils.IniParser.Access
import ClockUtils.IniParser.Save
import ClockUtils.IniParser.Blocks
import ClockUtils.IniParser.SaveLoad
import ClockUtils.IniParser.SaveExact
import ClockUtils.IniParser.LineIndex
import ClockUtils.IniParser.MapUpdate
import ClockUtils.IniParser.RemoveMissing
import ClockUtils.IniParser.SetValues
import ClockUtils.IniParser.Cells
import ClockUtils.IniParser.SetSave
import ClockUtils.IniParser.SetSaveLoad
import ClockUtils.IniParser.EditedSection
import ClockUtils.IniParser.EditSave
import ClockUtils.IniParser.EditSaveLoad
import ClockUtils.IniParser.Dictionary
import ClockUtils.IniParser.TypedValues
import ClockUtils.ArgParser.BasicVariable
import ClockUtils.ArgParser.Parser
import ClockUtils.ArgParser.Grammar
import ClockUtils.ArgParser.Progress
import ClockUtils.ArgParser.Turn
import ClockUtils.ArgParser.Recognition
import ClockUtils.ArgParser.CommandLine
import ClockUtils.ArgParser.RepeatedParses
import ClockUtils.ArgParser.StoredValues
import ClockUtils.ArgParser.HelpText
import ClockUtils.ArgParser.ArgumentList
import ClockUtils.ArgParser.ErrorText
import ClockUtils.ArgParser.Registry
import ClockUtils.Lib.Linearizability
import ClockUtils.Lib.AtomicProgram
import ClockUtils.Lib.ProtocolRun
import ClockUtils.Container.LockFreeQueue
import ClockUtils.Container.Fifo
import ClockUtils.Container.QueueProtocol
import ClockUtils.Container.Linearizable
import ClockUtils.Container.DoubleBufferQueue
import ClockUtils.Container.DoubleBufferProtocol
import ClockUtils.Container.DoubleBufferLinearizable
import ClockUtils.Lib.ControlPoints
import ClockUtils.Container.QueuePoints
import ClockUtils.Container.IndexOrder
import ClockUtils.Container.ClearOrder
import ClockUtils.Container.SizeReads
import ClockUtils.Lib.SequentialProgram
import ClockUtils.Container.Sequential
import ClockUtils.Container.EmptyReads
import ClockUtils.Lib.RunLifting
import ClockUtils.Lib.Queries
import ClockUtils.Lib.LockOrder
import ClockUtils.Container.DoubleBufferNumbered
import ClockUtils.Container.DoubleBufferClear
import ClockUtils.Container.CallsComplete
