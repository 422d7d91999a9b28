import Mumble.Util
import Mumble.AudioEncoder
import Mumble.Lib.Chunking
import Mumble.Lib.Bits
import Mumble.VarintProofs
import Mumble.BlockAlgebra
import Mumble.Ocb2
import Mumble.OcbAesProofs
import Mumble.BufferPool
import Mumble.UdpSsl
import Mumble.Lib.Lockstep
import Mumble.Network
import Mumble.NetworkProofs
import Mumble.LossProofs
import Mumble.FrameDecoder
import Mumble.Client
import Mumble.ControlStream
import Mumble.Audio
import Mumble.TunnelProofs
import Mumble.Lib.HighWater
import Mumble.SpeakerProofs
import Mumble.Buffer
import Mumble.EncoderProofs
import Mumble.TargetProofs
import Mumble.ControlBuffer
import Mumble.PacketParts
import Mumble.VoicePackets
import Mumble.ReceiverProofs
import Mumble.RelayProofs
import Mumble.NonceProofs
import Mumble.Lib.Reaches
import Mumble.UdpPing
import Mumble.LivenessProofs
import Mumble.Lib.Contract
import Mumble.UvTcpSsl
import Mumble.TcpPoolProofs
import Mumble.HandshakeProofs
import Mumble.CryptSetup
import Mumble.ResyncProofs
import Mumble.Lib.PrefixCode
import Mumble.VarintCode
import Mumble.VarintReads
import Mumble.KeyProofs
import Mumble.Descriptors
import Mumble.FrameProgress
import Mumble.PayloadProofs
import Mumble.FrameEncoder
import Mumble.FrameRoundTrip
import Mumble.Lib.Distinguish
import Mumble.Lib.OffsetSchedule
import Mumble.Ocb3
import Mumble.Ocb3Additive
import Mumble.Ocb3Points
import Mumble.Ocb3Conformance
import Mumble.VarintShortest
import Mumble.StaleFilter
import Mumble.PositionProofs
import Mumble.BufferEnd
import Mumble.LayoutProofs
import Mumble.FramingProofs
import Mumble.DurationProofs
import Mumble.PingReplies
import Mumble.ShiftProofs
import Mumble.BufferPoolProofs
import Mumble.BufferStream
import Mumble.ClientWrite
import Mumble.Lib.BinaryPower
import Mumble.OffsetOrder
import Mumble.ClientSystem
import Mumble.Faults
import Mumble.ClientEffects
import Mumble.Lib.History
import Mumble.ClientNonces
import Mumble.ClientLink
import Mumble.ClientVoice
import Mumble.ClientStream
import Mumble.Lib.Base128
import Mumble.ProtobufC.Message
import Mumble.ProtobufC.FieldRanges
import Mumble.ProtobufC.Pack
import Mumble.ProtobufC.Unpack
import Mumble.ProtobufC.Varints
import Mumble.ProtobufC.Scanning
import Mumble.ProtobufC.Records
import Mumble.ProtobufC.PackedSize
import Mumble.MumbleProto
import Mumble.ProtobufC.RoundTrip
import Mumble.ProtobufC.Accepted
import Mumble.ProtobufC.Safety
import Mumble.ProtobufC.Settled
import Mumble.ProtobufC.Buffers
import Mumble.GeneratedCode
import Mumble.Login
