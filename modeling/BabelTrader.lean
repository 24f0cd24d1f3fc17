import BabelTrader.Library.WhileLoop
import BabelTrader.Library.Framing
import BabelTrader.Library.MachineWord
import BabelTrader.Msg
import BabelTrader.BytesBuffer
import BabelTrader.Session
import BabelTrader.BytesToMsgDecoder
import BabelTrader.Front
import BabelTrader.Proof.Passes
import BabelTrader.SharedDecoder
import BabelTrader.Proof.Decode
import BabelTrader.Proof.SharedDecoder
import BabelTrader.ScriptedPeer
import BabelTrader.Proof.Conservation
import BabelTrader.Proof.Framed
import BabelTrader.MsgToBytesEncoder
import BabelTrader.Proof.RoundTrip
import BabelTrader.Proof.Segmentation
import BabelTrader.Proof.FailStop
import BabelTrader.Proof.Residue
import BabelTrader.Proof.EmptyFrame
import BabelTrader.Proof.WellFormed
import BabelTrader.Proof.Canonical
import BabelTrader.SendMessage
import BabelTrader.Proof.Sending
import BabelTrader.Proof.StaleHeader
import BabelTrader.Dispatcher
import BabelTrader.Proof.Closing
import BabelTrader.Library.Linked
import BabelTrader.CodecLinks
import BabelTrader.Proof.CodecLinks
import BabelTrader.Proof.Dispatcher
import BabelTrader.Library.CString
import BabelTrader.TcpServerSession
import BabelTrader.Proof.RequestHandlers
import BabelTrader.Library.Runs
import BabelTrader.TcpServerWorker
import BabelTrader.Proof.WorkerAssignment
import BabelTrader.Proof.HandOver
import BabelTrader.TcpServerChannel
import BabelTrader.Proof.ChannelLifetime
import BabelTrader.Proof.ChannelDelivery
import BabelTrader.Proof.CopyPath
import BabelTrader.RingBuffer
import BabelTrader.BufferCalls
import BabelTrader.Proof.BufferCalls
import BabelTrader.Proof.ShortRead
import BabelTrader.Proof.ReceiveUnit
import BabelTrader.Library.Mailbox
import BabelTrader.Endpoint
import BabelTrader.TcpClientSession
import BabelTrader.DemoProtocol
import BabelTrader.Proof.DemoMessages
import BabelTrader.Proof.Transport
import BabelTrader.Proof.DemoConversation
import BabelTrader.Proof.AnyPeer
import BabelTrader.Proof.Confined
import BabelTrader.Proof.ChannelAgrees
import BabelTrader.Proof.WorkerAgrees
import BabelTrader.TcpServerHandle
import BabelTrader.Proof.IdleTimer
import BabelTrader.WorkerTimers
import BabelTrader.Proof.WorkerTimers
import BabelTrader.TcpClientHandle
import BabelTrader.Proof.Reconnect
