import OlivePiccolo.Library.Runs
import OlivePiccolo.TinyThreads.Exclusion
import OlivePiccolo.TinyThreads.Once
import OlivePiccolo.Rpc.Bounds
import OlivePiccolo.Rpc.Framing
import OlivePiccolo.Rpc.Resync
import OlivePiccolo.Rpc.Ownership
import OlivePiccolo.Rpc.Handoff
import OlivePiccolo.Hostbridge.Source
import OlivePiccolo.Hostbridge.Service
import OlivePiccolo.Hostbridge.Demux
import OlivePiccolo.Hostbridge.Packetized
import OlivePiccolo.Hostbridge.Raw
import OlivePiccolo.Hostbridge.Avm
import OlivePiccolo.Library.Memory
import OlivePiccolo.Bson.RoundTrip
import OlivePiccolo.RubicAgent.Delivery
import OlivePiccolo.Library.PowTwo
import OlivePiccolo.Library.Ring
import OlivePiccolo.Hostbridge.Pipe
import OlivePiccolo.Hostbridge.PipeFifo
import OlivePiccolo.Hostbridge.PipeWakeup
import OlivePiccolo.Rpc.Params
import OlivePiccolo.Rpc.Reply
import OlivePiccolo.Rpc.Disclosure
import OlivePiccolo.Tth.Structure
import OlivePiccolo.ClientFs.Open
import OlivePiccolo.ClientFs.Requests
import OlivePiccolo.RubicAgent.Locking
import OlivePiccolo.RubicAgent.Acknowledge
import OlivePiccolo.RubicAgent.ScriptText
import OlivePiccolo.RubicAgent.Treatment
import OlivePiccolo.Tth.Semaphore
import OlivePiccolo.Lz4hc.RoundTrip
import OlivePiccolo.Boot.RoundTrip
import OlivePiccolo.Pfc.PerPin
import OlivePiccolo.Flash.Areas
import OlivePiccolo.Flash.Partition
import OlivePiccolo.Flash.RawWrite
import OlivePiccolo.Flash.Range
import OlivePiccolo.Flash.Write
import OlivePiccolo.Spi.Merge
import OlivePiccolo.Spi.Transfer
import OlivePiccolo.Spi.Bitrate
import OlivePiccolo.Spi.Pins
import OlivePiccolo.Spi.Bytes
import OlivePiccolo.Flash.Sfdp
import OlivePiccolo.I2c.Transaction
import OlivePiccolo.Digest.Crc32
import OlivePiccolo.RubicAgent.BootBounds
import OlivePiccolo.RubicAgent.BootText
import OlivePiccolo.RubicAgent.ProgWrite
import OlivePiccolo.RubicAgent.InfoCache
import OlivePiccolo.RubicAgent.MissingParams
import OlivePiccolo.Bson.ReadBounds
import OlivePiccolo.Rpc.Outputs
import OlivePiccolo.Hostbridge.Sinks
import OlivePiccolo.Hostbridge.Responses
import OlivePiccolo.ClientFs.MountPoint
import OlivePiccolo.ClientFs.Buffers
import OlivePiccolo.Hostbridge.Chunks
import OlivePiccolo.Bson.Shorter
import OlivePiccolo.Tth.Sleep
import OlivePiccolo.Tth.CondWait
import OlivePiccolo.Tth.Stacks
import OlivePiccolo.Tth.Abstraction
import OlivePiccolo.Library.Arming
import OlivePiccolo.BufferedUart.Enables
import OlivePiccolo.Elf.Strip
import OlivePiccolo.Boot.Program
import OlivePiccolo.FatFs.Files
