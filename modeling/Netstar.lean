import Netstar.Lib.LittleEndian
import Netstar.Lib.LossyLine
import Netstar.Lib.OwnerTable
import Netstar.Lib.Run
import Netstar.Lib.Segments
import Netstar.Lib.Pieces
import Netstar.Lib.SlotPool
import Netstar.Lib.LongestSuffix
import Netstar.Lib.Result
import Netstar.Lib.TableTotal
import Netstar.Spec.Net.PacketUtil
import Netstar.Spec.Net.Tcp
import Netstar.Spec.Net.Tcb
import Netstar.Spec.Net.TcbOutput
import Netstar.Spec.Net.TcbInput
import Netstar.Spec.Net.TcbSession
import Netstar.Spec.Net.Cwnd
import Netstar.Spec.Net.TcpReceived
import Netstar.Spec.Net.Packet
import Netstar.Spec.Net.PacketStore
import Netstar.Spec.Net.Forward
import Netstar.Spec.Net.Ip
import Netstar.Spec.Net.IpSend
import Netstar.Spec.AsyncFlow.SdAsyncFlowHook
import Netstar.Spec.Preprocessor.TcpReorderPpr
import Netstar.Spec.AsyncFlow.Util
import Netstar.Spec.AsyncFlow.SdAsyncFlow
import Netstar.Spec.AsyncFlow.SdAsyncFlowManager
import Netstar.Spec.AsyncFlow.AsyncFlow
import Netstar.Spec.AsyncFlow.AsyncFlowManager
import Netstar.Spec.Mica.Def
import Netstar.Spec.Mica.RequestDescriptor
import Netstar.Spec.Mica.Response
import Netstar.Spec.Mica.MicaClient
import Netstar.Spec.Mica.Network
import Netstar.Spec.Mica.BatchHeader
import Netstar.Spec.Mica.Receive
import Netstar.Spec.Mica.Batches
import Netstar.Spec.Mica.QueueMapping
import Netstar.Spec.AhoCorasick.Aho
import Netstar.Spec.AhoCorasick.HttpIds
import Netstar.Lib.Ring
import Netstar.Spec.Core.Bitops
import Netstar.Spec.Core.CircularBuffer
import Netstar.Spec.Core.BufferLifetimes
import Netstar.Lib.Chain
import Netstar.Lib.DList
import Netstar.Spec.Core.ChunkedFifo
import Netstar.Spec.Core.FifoReserve
import Netstar.Lib.HighBit
import Netstar.Spec.Core.TimerSet
import Netstar.Spec.Core.OutputStream
import Netstar.Spec.Core.Pipe
import Netstar.Spec.Core.PageList
import Netstar.Lib.Tiling
import Netstar.Spec.Core.CpuPages
import Netstar.Spec.Core.SharedMutex
import Netstar.Spec.Core.ExpiringFifo
import Netstar.Spec.Core.Semaphore
import Netstar.Spec.Core.FairQueue
import Netstar.Proofs.Core.CircularBuffer
import Netstar.Proofs.Core.BufferLifetimes
import Netstar.Proofs.Core.ChunkedFifo
import Netstar.Proofs.Core.FifoReserve
import Netstar.Proofs.Core.TimerSet
import Netstar.Proofs.Core.OutputStream
import Netstar.Proofs.Core.Pipe
import Netstar.Proofs.Core.SharedMutex
import Netstar.Lib.Tickets
import Netstar.Proofs.Core.ExpiringFifo
import Netstar.Proofs.Core.Semaphore
import Netstar.Proofs.Core.SemaphoreFront
import Netstar.Proofs.Core.FairQueue
import Netstar.Proofs.Net.PacketMerger
import Netstar.Proofs.Net.MergeBytes
import Netstar.Proofs.Net.TcpMerger
import Netstar.Proofs.Net.Tcb
import Netstar.Proofs.Net.TcbSend
import Netstar.Proofs.Net.TcbStream
import Netstar.Proofs.Net.TcbHandshake
import Netstar.Proofs.Net.TcbReceive
import Netstar.Proofs.Net.TcbUnread
import Netstar.Proofs.Net.TcbAsserts
import Netstar.Proofs.Net.TcbWindow
import Netstar.Proofs.Net.TcbAcked
import Netstar.Proofs.Net.TcbCwnd
import Netstar.Proofs.Net.TcpReceived
import Netstar.Proofs.Net.Packet
import Netstar.Proofs.Net.PacketShare
import Netstar.Proofs.Net.PacketAsserts
import Netstar.Proofs.Net.PacketStore
import Netstar.Proofs.Net.PacketHeadroom
import Netstar.Spec.Net.UdpChannels
import Netstar.Proofs.Net.UdpChannels
import Netstar.Lib.OnesComplement
import Netstar.Spec.Net.Checksummer
import Netstar.Proofs.Net.Checksummer
import Netstar.Spec.Net.Arp
import Netstar.Proofs.Net.Arp
import Netstar.Spec.Net.DhcpOptions
import Netstar.Proofs.Net.DhcpOptions
import Netstar.Spec.Net.Dhcp
import Netstar.Proofs.Net.Dhcp
import Netstar.Proofs.Net.Forward
import Netstar.Proofs.AsyncFlow.HookKeys
import Netstar.Proofs.Net.FragMemory
import Netstar.Proofs.Net.Reassembly
import Netstar.Proofs.Net.IpSend
import Netstar.Proofs.Preprocessor.TcpReorder
import Netstar.Proofs.Preprocessor.SynPayload
import Netstar.Proofs.Preprocessor.HookedFrames
import Netstar.Proofs.AsyncFlow.SdAsyncFlow
import Netstar.Proofs.AsyncFlow.SdClose
import Netstar.Proofs.AsyncFlow.SdFlowTable
import Netstar.Proofs.AsyncFlow.WorkUnits
import Netstar.Proofs.AsyncFlow.Drops
import Netstar.Proofs.AsyncFlow.Forwarding
import Netstar.Proofs.AsyncFlow.AsyncFlow
import Netstar.Proofs.AsyncFlow.FlowKeys
import Netstar.Proofs.AsyncFlow.FlowTable
import Netstar.Proofs.Mica.Wire
import Netstar.Proofs.Mica.BatchHeader
import Netstar.Proofs.Mica.Receive
import Netstar.Proofs.Mica.Batches
import Netstar.Proofs.Mica.QueueMapping
import Netstar.Proofs.Mica.RequestAssembler
import Netstar.Proofs.Mica.ClientPool
import Netstar.Proofs.Mica.MicaClient
import Netstar.Proofs.Mica.Network
import Netstar.Proofs.Mica.Queries
import Netstar.Proofs.AhoCorasick.Trie
import Netstar.Proofs.AhoCorasick.Failures
import Netstar.Proofs.AhoCorasick.Aho
import Netstar.Proofs.AhoCorasick.HttpIds
import Netstar.Spec.Rpc.Negotiation
import Netstar.Proofs.Rpc.Negotiation
import Netstar.Proofs.Core.PageList
import Netstar.Spec.Memcached.Item
import Netstar.Spec.Memcached.Cache
import Netstar.Spec.Memcached.Request
import Netstar.Spec.Memcached.CacheMap
import Netstar.Spec.Memcached.Flight
import Netstar.Proofs.Memcached.Item
import Netstar.Proofs.Memcached.Cache
import Netstar.Proofs.Memcached.CacheMap
import Netstar.Spec.Memcached.Gets
import Netstar.Proofs.Memcached.Flight
import Netstar.Proofs.Memcached.Gets
import Netstar.Spec.Memcached.Failure
import Netstar.Proofs.Memcached.Failure
import Netstar.Spec.Memcached.Ascii
import Netstar.Proofs.Memcached.Ascii
import Netstar.Spec.Core.InputStream
import Netstar.Proofs.Core.InputStream
import Netstar.Spec.Core.StreamLoops
import Netstar.Proofs.Core.StreamLoops
import Netstar.Spec.Rpc.Frame
import Netstar.Proofs.Rpc.Frame
import Netstar.Spec.Rpc.ReplyGate
import Netstar.Proofs.Rpc.ReplyGate
import Netstar.Spec.Rpc.Deadline
import Netstar.Proofs.Rpc.Deadline
import Netstar.Spec.Rpc.Client
import Netstar.Proofs.Rpc.Client
import Netstar.Lib.SortedMap
import Netstar.Spec.Rpc.NegotiationFrame
import Netstar.Proofs.Rpc.NegotiationFrame
import Netstar.Lib.BackLinks
import Netstar.Spec.Rpc.BackPointers
import Netstar.Proofs.Rpc.BackPointers
import Netstar.Spec.Rpc.Prompt
import Netstar.Proofs.Rpc.Prompt
import Netstar.Lib.ChunkedCoding
import Netstar.Spec.Http.ChunkedOutput
import Netstar.Proofs.Http.ChunkedOutput
import Netstar.Proofs.Core.CpuPages
import Netstar.Proofs.Net.TcpMergerRun
import Netstar.Lib.BitWindow
import Netstar.Spec.Net.Toeplitz
import Netstar.Proofs.Net.Toeplitz
import Netstar.Proofs.Core.TimerSetBits
import Netstar.Lib.PercentCoding
import Netstar.Spec.Http.UrlDecode
import Netstar.Proofs.Http.UrlDecode
import Netstar.Spec.Core.SimpleStream
import Netstar.Proofs.Core.SimpleStream
import Netstar.Spec.Core.Sstring
import Netstar.Proofs.Core.Sstring
import Netstar.Lib.JsonText
import Netstar.Spec.Json.Formatter
import Netstar.Spec.Http.Exception
import Netstar.Proofs.Json.Formatter
import Netstar.Spec.Http.Matcher
import Netstar.Proofs.Http.Matcher
import Netstar.Spec.Http.Routes
import Netstar.Proofs.Http.Routes
import Netstar.Lib.PathNames
import Netstar.Spec.Http.FileHandler
import Netstar.Proofs.Http.FileHandler
