import Noflate.General.Bits
import Noflate.General.Canonical
import Noflate.General.Depths
import Noflate.General.Resumable
import Noflate.General.Periodic
import Noflate.General.Crc
import Noflate.General.Framing
import Noflate.General.Readers
import Noflate.General.Bursts
import Noflate.Error
import Noflate.Buf
import Noflate.Bit
import Noflate.Symbol
import Noflate.Huffman
import Noflate.Decode
import Noflate.Rfc1951
import Noflate.Machine
import Noflate.Session
import Noflate.Deflate
import Noflate.Adler32
import Noflate.Crc32
import Noflate.Rfc1950
import Noflate.Rfc1952
import Noflate.Drain
import Noflate.Container
import Noflate.Gzip
import Noflate.Zlib
import Noflate.Lz77
import Noflate.Greedy
import Noflate.Encode
import Noflate.Encoding
import Noflate.Strict
import Noflate.References
import Noflate.OneShot
import Noflate.ContainerDecoding
import Noflate.PerMessage
import Noflate.Pipe
import Noflate.Layout
import Noflate.Detection
import Noflate.Bridge
import Noflate.Lemmas.Table
import Noflate.Lemmas.Symbols
import Noflate.Lemmas.Items
import Noflate.Lemmas.Copying
import Noflate.Lemmas.Steps
import Noflate.Lemmas.DynamicSteps
import Noflate.Lemmas.SymbolSteps
import Noflate.Lemmas.Driving
import Noflate.Lemmas.Sessions
import Noflate.Lemmas.Reading
import Noflate.Lemmas.Reference
import Noflate.Lemmas.Takings
import Noflate.Lemmas.Completeness
import Noflate.Lemmas.Decompress
import Noflate.Lemmas.Checksums
import Noflate.Lemmas.Exactness
import Noflate.Lemmas.Draining
import Noflate.Lemmas.GzipFormat
import Noflate.Lemmas.GzipSteps
import Noflate.Lemmas.ZlibSteps
import Noflate.Lemmas.Matching
import Noflate.Lemmas.Codes
import Noflate.Lemmas.PackageMerge
import Noflate.Lemmas.CodeRanges
import Noflate.Lemmas.Optimality
import Noflate.Lemmas.RunCoding
import Noflate.Lemmas.CodeSets
import Noflate.Lemmas.Freshness
import Noflate.Lemmas.Blocks
import Noflate.Lemmas.Streams
import Noflate.Lemmas.DynamicBlocks
import Noflate.Lemmas.Emitting
import Noflate.Lemmas.Emission
import Noflate.Lemmas.EncoderRuns
import Noflate.Lemmas.Continuing
import Noflate.Lemmas.Tracing
import Noflate.Lemmas.Messages
import Noflate.Lemmas.ContainerRuns
import Noflate.Lemmas.HashChains
import Noflate.Lemmas.Frames
import Noflate.Lemmas.Sending
import Noflate.Lemmas.Receiving
import Noflate.Lemmas.Layout
import Noflate.Lemmas.Costs
import Noflate.Lemmas.Sizes
import Noflate.Lemmas.Wrapping
import Noflate.Lemmas.ContainerSessions
import Noflate.Lemmas.BridgeWriter
import Noflate.Lemmas.BridgeReader
import Noflate.Theorems.Schedules
import Noflate.Theorems.Decoding
import Noflate.Theorems.Boundaries
import Noflate.Theorems.Placeholder
import Noflate.Theorems.Termination
import Noflate.Theorems.Containers
import Noflate.Theorems.RoundTrip
import Noflate.Theorems.Independence
import Noflate.Theorems.Isolation
import Noflate.Theorems.CompleteCodes
import Noflate.Theorems.Truncation
import Noflate.Theorems.Safety
import Noflate.Theorems.Buffering
import Noflate.Theorems.Coding
import Noflate.Theorems.Checksums
import Noflate.Theorems.BackReferences
import Noflate.Theorems.Tables
import Noflate.Theorems.RunCoding
import Noflate.Theorems.Transport
import Noflate.Theorems.Optimality
import Noflate.Theorems.PerMessage
import Noflate.Theorems.Pipe
import Noflate.Theorems.OneShot
import Noflate.Theorems.ContainerSchedules
import Noflate.Theorems.Sizes
import Noflate.Theorems.Expansion
import Noflate.Theorems.Detection
import Noflate.Theorems.Conformance
import Noflate.Theorems.Extents
import Noflate.Theorems.Bridge
import Noflate.Theorems.Corruption
import Noflate.Theorems.Aftermath
import Noflate.Theorems.BodyFailure
import Noflate.Theorems.Wrapping
import Noflate.Theorems.Retention
