import DecodingProxy.Buffers.ExtensionsForStringBuilder
import DecodingProxy.Buffers.MemoryAdapters
import DecodingProxy.Buffers.ParseByte
import DecodingProxy.Buffers.SpanAsString
import DecodingProxy.Buffers.Tokens
import DecodingProxy.Certs.CacheAgreement
import DecodingProxy.Certs.CertManager
import DecodingProxy.Collections.CircledQueue
import DecodingProxy.Collections.QueueEnumeration
import DecodingProxy.Collections.QueuePointers
import DecodingProxy.Collections.QueueRefinement
import DecodingProxy.Collections.QueueRemoval
import DecodingProxy.Collections.QueueWindow
import DecodingProxy.Collections.SubstringMatchQueue
import DecodingProxy.Cryptography.AlpnDetection
import DecodingProxy.Cryptography.CertificateReaders
import DecodingProxy.Cryptography.HandshakePayloads
import DecodingProxy.Cryptography.HelloExtensions
import DecodingProxy.Cryptography.HelloRecords
import DecodingProxy.Cryptography.IntegrityChecks
import DecodingProxy.Cryptography.ParseFrames
import DecodingProxy.Cryptography.ParserForTls12
import DecodingProxy.Cryptography.RecordExtraction
import DecodingProxy.Cryptography.SegmentedExtensions
import DecodingProxy.Cryptography.ServerHelloReaders
import DecodingProxy.Cryptography.StreamForTlsFrames
import DecodingProxy.Cryptography.TlsHandshakeReadOperation
import DecodingProxy.Cryptography.TlsPlayerWithProxy
import DecodingProxy.Cryptography.TlsReader
import DecodingProxy.Grpc.Correlation
import DecodingProxy.Grpc.GrpcHub
import DecodingProxy.Http.ChunkedFraming
import DecodingProxy.Http.ChunkedReading
import DecodingProxy.Http.ContentLengthFraming
import DecodingProxy.Http.EnumeratorForHttp20
import DecodingProxy.Http.FieldLines
import DecodingProxy.Http.FieldValues
import DecodingProxy.Http.HeadCollection
import DecodingProxy.Http.HeaderReading
import DecodingProxy.Http.HostDisassembly
import DecodingProxy.Http.HostFinders
import DecodingProxy.Http.HttpBody
import DecodingProxy.Http.HttpFieldsV11
import DecodingProxy.Http.HttpObject
import DecodingProxy.Http.Messages
import DecodingProxy.Http.Origin
import DecodingProxy.Http.Pooling
import DecodingProxy.Http.ReadChunks
import DecodingProxy.Http.ReadFields
import DecodingProxy.Http.StartLine
import DecodingProxy.Http20.HuffmanCoding
import DecodingProxy.Http20.HuffmanDecoder
import DecodingProxy.Http20.HuffmanDecoding
import DecodingProxy.Http20.HuffmanEncoder
import DecodingProxy.Http20.HuffmanTree
import DecodingProxy.Http20.ReaderHttp2
import DecodingProxy.Http20.StaticTable
import DecodingProxy.Lib.Alike
import DecodingProxy.Lib.Arrays
import DecodingProxy.Lib.Bits
import DecodingProxy.Lib.Chains
import DecodingProxy.Lib.Forests
import DecodingProxy.Lib.Fuel
import DecodingProxy.Lib.Handoff
import DecodingProxy.Lib.Lines
import DecodingProxy.Lib.Occurrences
import DecodingProxy.Lib.PrefixCodes
import DecodingProxy.Lib.Prefixes
import DecodingProxy.Lib.Restarts
import DecodingProxy.Lib.Rings
import DecodingProxy.Lib.Runs
import DecodingProxy.Lib.Searches
import DecodingProxy.Lib.Splits
import DecodingProxy.Lib.Vectors
import DecodingProxy.MappedFrameReader.Attribution
import DecodingProxy.MappedFrameReader.ExecutedPaths
import DecodingProxy.MappedFrameReader.FieldSequences
import DecodingProxy.MappedFrameReader.ImportEnds
import DecodingProxy.MappedFrameReader.NodeRepeat
import DecodingProxy.MappedFrameReader.PositionAccounting
import DecodingProxy.MappedFrameReader.Reader
import DecodingProxy.MappedFrameReader.SchemeImporter
import DecodingProxy.MappedFrameReader.SchemeText
import DecodingProxy.MappedFrameReader.TextImporter
import DecodingProxy.MappedFrameReader.TextRefinement
import DecodingProxy.Nodes.BidirectionalNode
import DecodingProxy.Nodes.IziGraph
import DecodingProxy.Nodes.NodeGate
import DecodingProxy.Nodes.NodeSocketReader
import DecodingProxy.Nodes.NodeTlsFramesReader
import DecodingProxy.Piped.BodyIndexes
import DecodingProxy.Piped.ChunkedBodies
import DecodingProxy.Piped.FieldLookup
import DecodingProxy.Piped.FieldSections
import DecodingProxy.Piped.FindVersion
import DecodingProxy.Piped.HeaderEnds
import DecodingProxy.Piped.HeaderMap
import DecodingProxy.Piped.HttpBinaryMapped
import DecodingProxy.Piped.HttpPipedIntermediary
import DecodingProxy.Piped.KeepAlive
import DecodingProxy.Piped.MessageCounts
import DecodingProxy.Piped.MessageFraming
import DecodingProxy.Piped.MessageHandover
import DecodingProxy.Piped.MessagingSteps
import DecodingProxy.Piped.ObjectReaderHttp11Piped
import DecodingProxy.Piped.Shutdown
import DecodingProxy.Piped.SubsequenceChecks
import DecodingProxy.Pools.PoolObjects
import DecodingProxy.Pools.SharedPools
import DecodingProxy.Recording.HttpRecordAnalyzer
import DecodingProxy.Recording.SequenceFactory
import DecodingProxy.Recording.StreamForRecording
import DecodingProxy.Runtime.ArrayPool
import DecodingProxy.Runtime.BufferReader
import DecodingProxy.Runtime.Dictionary
import DecodingProxy.Runtime.Faults
import DecodingProxy.Runtime.Memory
import DecodingProxy.Runtime.NetworkStream
import DecodingProxy.Runtime.Pipe
import DecodingProxy.Runtime.Queue
import DecodingProxy.Runtime.ReadOnlySequence
import DecodingProxy.Runtime.Strings
import DecodingProxy.Runtime.Text
import DecodingProxy.Runtime.Utf8
import DecodingProxy.Runtime.Utf8RoundTrip
import DecodingProxy.Sockets.BoundConsumers
import DecodingProxy.Sockets.BufferSessions
import DecodingProxy.Sockets.Interceptors
import DecodingProxy.Sockets.PipedSocket
import DecodingProxy.Sockets.ReaderChain
import DecodingProxy.Sockets.SocketBufferDefault
import DecodingProxy.Sockets.SocketReader
import DecodingProxy.Sockets.SocketReaderBuffered
import DecodingProxy.Sockets.SocketReaderPiped
import DecodingProxy.Sockets.SocketWrap
import DecodingProxy.Socks.ConnectionTunnel
import DecodingProxy.Socks.Requests
import DecodingProxy.Socks.ServerForSocks5
import DecodingProxy.Streams.BufferedReads
import DecodingProxy.Streams.CopyStreamToStream
import DecodingProxy.Streams.DemultiplexerSessions
import DecodingProxy.Streams.ExtensionsForStream
import DecodingProxy.Streams.ReadLineOverloads
import DecodingProxy.Streams.SliceDelivery
import DecodingProxy.Streams.StreamBufferedForReads
import DecodingProxy.Streams.StreamDemultiplexer
import DecodingProxy.Streams.StreamForLines
import DecodingProxy.Tcp.ConnectionOwnership
import DecodingProxy.Tcp.ConnectionsToDomain
import DecodingProxy.Tcp.CreateConnection
import DecodingProxy.Tcp.DomainThreads
import DecodingProxy.Tcp.StalledChain
import DecodingProxy.Threading.AsyncAutoResetEvent
import DecodingProxy.Threading.AsyncCounter
import DecodingProxy.Threading.AsyncSignaler
import DecodingProxy.Threading.EventHandoff
import DecodingProxy.Threading.EventMailbox
import DecodingProxy.Threading.IziSignaler
import DecodingProxy.Threading.Joins
import DecodingProxy.Threading.SignalCounts
import DecodingProxy.Threading.SignalEvent
import DecodingProxy.Threading.SignalerCancellation
import DecodingProxy.Threading.StrandedWaits
import DecodingProxy.XmlGraph.Edges
import DecodingProxy.XmlGraph.Outlines
import DecodingProxy.XmlGraph.XmlSchema
