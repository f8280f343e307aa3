import ATLink.Lib.Run
import ATLink.Lib.Simulation
import ATLink.Lib.StringView
import ATLink.Lib.CharConv
import ATLink.Lib.LowerBound
import ATLink.Lib.CopyDown
import ATLink.Lib.Reader
import ATLink.Lib.Monitor
import ATLink.Lib.WakeUps
import ATLink.Types
import ATLink.Deserializer
import ATLink.CursorSafety
import ATLink.EnumLookup
import ATLink.Serializer
import ATLink.QuotedCodec
import ATLink.Packet
import ATLink.Visits
import ATLink.Send
import ATLink.CommandCodec
import ATLink.ResponsePack
import ATLink.Grammar
import ATLink.Lines
import ATLink.MultiLine
import ATLink.FinalResult
import ATLink.Receive
import ATLink.Urc
import ATLink.Conservation
import ATLink.Progress
import ATLink.UrcFragmentation
import ATLink.UrcLines
import ATLink.Demux
import ATLink.TextParsers
import ATLink.Fsm
import ATLink.Completion
import ATLink.Fragmentation
import ATLink.System
import ATLink.HalfDuplex
import ATLink.Callers
import ATLink.RxCapacity
import ATLink.ObjectReuse
import ATLink.PacketCodec
import ATLink.QuotedField
import ATLink.TerminatingNul
import ATLink.Logger
import ATLink.Transactions
import ATLink.Exchange
import ATLink.Timer
import ATLink.EventLoop
import ATLink.QueueMonitor
import ATLink.Driver
import ATLink.DeviceIO
import ATLink.Threads
import ATLink.Quiescence
import ATLink.ThreadRest
import ATLink.Blockage
import ATLink.Delivery
import ATLink.Draining
import ATLink.Standard
