import GridcoreRunner.Causal
import GridcoreRunner.Engine.Constraint
import GridcoreRunner.Engine.State
import GridcoreRunner.Engine.Speculative
import GridcoreRunner.Engine.Coherence
import GridcoreRunner.Engine.SpecCoherence
import GridcoreRunner.Engine.PrefixCache
import GridcoreRunner.Engine.PrefixCoherence
import GridcoreRunner.Engine.Fleet
import GridcoreRunner.Engine.Fork
import GridcoreRunner.Engine.Line
import GridcoreRunner.Engine.SpecAgreement
import GridcoreRunner.Overlap
import GridcoreRunner.Engine.Prelude
import GridcoreRunner.Engine.Replay
import GridcoreRunner.Json.TailBound
import GridcoreRunner.Sink
import GridcoreRunner.Schema.Node
import GridcoreRunner.Schema.Validator
import GridcoreRunner.Schema.Closer
import GridcoreRunner.Schema.ClosingSize
import GridcoreRunner.Engine.ForcedTail
import GridcoreRunner.Engine.Boundary
import GridcoreRunner.Completion.ThinkSplit
import GridcoreRunner.Completion.StopFilter
import GridcoreRunner.Completion.StopPipeline
import GridcoreRunner.Utf8
import GridcoreRunner.Json.Ascii
import GridcoreRunner.Json.Parser
import GridcoreRunner.Json.Document
import GridcoreRunner.Json.ReadScalars
import GridcoreRunner.Json.ReadBack
import GridcoreRunner.Json.Mode
import GridcoreRunner.Json.Open
import GridcoreRunner.Json.ModeTree
import GridcoreRunner.Json.ModeReadBack
import GridcoreRunner.BinaryHeap
import GridcoreRunner.GreedyMerge
import GridcoreRunner.Regex
import GridcoreRunner.Tokenizer.Vocabulary
import GridcoreRunner.Tokenizer.Merge
import GridcoreRunner.Tokenizer.Chain
import GridcoreRunner.Tokenizer.Candidates
import GridcoreRunner.Tokenizer.MergeQueue
import GridcoreRunner.Tokenizer.Split
import GridcoreRunner.Tokenizer.SplitRegex
import GridcoreRunner.Tokenizer.CaseSplit
import GridcoreRunner.Tokenizer.SplitPieces
import GridcoreRunner.Tokenizer.SplitPasses
import GridcoreRunner.Tokenizer.PreTokens
import GridcoreRunner.Tokenizer.Encode
import GridcoreRunner.Tokenizer.Pieces
import GridcoreRunner.Tokenizer.Marks
import GridcoreRunner.Tokenizer.Lossless
import GridcoreRunner.Tokenizer.ByteLevel
import GridcoreRunner.Tokenizer.Roundtrip
import GridcoreRunner.Decimal
import GridcoreRunner.Vram.Registry
import GridcoreRunner.Vram.RegistryText
import GridcoreRunner.Vram.Device
import GridcoreRunner.Vram.Ledger
import GridcoreRunner.Vram.Accounting
import GridcoreRunner.Vram.Safety
import GridcoreRunner.Vram.Station
import GridcoreRunner.Vram.Lifecycle
import GridcoreRunner.Json.Escape
import GridcoreRunner.Json.EscapePieces
import GridcoreRunner.Json.Seams
import GridcoreRunner.Json.ModeScalars
import GridcoreRunner.Json.ModeLanguage
import GridcoreRunner.Stream.Emitter
import GridcoreRunner.Stream.Hold
import GridcoreRunner.Stream.Speech
import GridcoreRunner.Stream.Groups
import GridcoreRunner.Stream.Wire
import GridcoreRunner.Stream.Responses
import GridcoreRunner.Stream.Messages
import GridcoreRunner.Stream.Run
import GridcoreRunner.Stream.Turn
import GridcoreRunner.Stream.Framing
import GridcoreRunner.Stream.Grammar
import GridcoreRunner.Reader
import GridcoreRunner.Gguf.Types
import GridcoreRunner.Gguf.Header
import GridcoreRunner.Gguf.Bounds
import GridcoreRunner.Gguf.Open
import GridcoreRunner.Gguf.Safety
import GridcoreRunner.Gguf.HeaderOnly
import GridcoreRunner.Gguf.SplitSet
import GridcoreRunner.Gguf.Mappings
import GridcoreRunner.Gguf.SplitTable
import GridcoreRunner.Server.Swap
import GridcoreRunner.Server.Unload
import GridcoreRunner.Scatter
import GridcoreRunner.TicketLock
import GridcoreRunner.Server.DeviceTurn
import GridcoreRunner.Server.Scheduler
import GridcoreRunner.Server.SchedulerInv
import GridcoreRunner.Server.SchedulerWork
import GridcoreRunner.Server.SchedulerSolo
import GridcoreRunner.Server.SchedulerRuns
import GridcoreRunner.Completion.ThinkChannels
import GridcoreRunner.Schema.Integer
import GridcoreRunner.Schema.Raw
import GridcoreRunner.Engine.PrefixFile
import GridcoreRunner.Engine.PrefixRuns
import GridcoreRunner.Engine.PrefixPersistence
import GridcoreRunner.Engine.PrefixReach
import GridcoreRunner.Turnover
import GridcoreRunner.Engine.Evictions
import GridcoreRunner.Sampler.FastPaths
import GridcoreRunner.Sampler.Window
import GridcoreRunner.Schema.Trial
import GridcoreRunner.Quant.KPack
import GridcoreRunner.Quant.KRead
import GridcoreRunner.Fields
import GridcoreRunner.Quant.Grid
import GridcoreRunner.Utf8Chars
import GridcoreRunner.Json.EscapeText
import GridcoreRunner.Json.Accept
import GridcoreRunner.Stream.FinalStr
import GridcoreRunner.Outcome
import GridcoreRunner.OpenAddressing
import GridcoreRunner.Json.Decoded
import GridcoreRunner.Json.Keyset
import GridcoreRunner.Json.Cursor
import GridcoreRunner.Json.CursorReads
import GridcoreRunner.Json.Grammar
import GridcoreRunner.Json.Doubles
import GridcoreRunner.Json.NumberText
import GridcoreRunner.Json.Dump
import GridcoreRunner.Json.Build
import GridcoreRunner.Json.Stuck
import GridcoreRunner.Json.Clean
import GridcoreRunner.Compaction
import GridcoreRunner.Template.ArgumentReader
import GridcoreRunner.Template.Calls
import GridcoreRunner.Template.CallItems
import GridcoreRunner.Template.Recovery
import GridcoreRunner.Template.RecoveredArguments
import GridcoreRunner.Template.SpoiledCalls
import GridcoreRunner.Template.ArgumentFormat
import GridcoreRunner.Template.History
import GridcoreRunner.Http.Framing
import GridcoreRunner.Http.Interpretation
import GridcoreRunner.Vram.RegistryLines
import GridcoreRunner.StableSort
import GridcoreRunner.Tokenizer.Special
import GridcoreRunner.Tokenizer.SpecialScan
import GridcoreRunner.Tokenizer.SplitCursor
import GridcoreRunner.Tokenizer.Partition
import GridcoreRunner.Schema.Reentry
import GridcoreRunner.Schema.FrameBudget
import GridcoreRunner.Schema.FrameRuns
import GridcoreRunner.Yields
import GridcoreRunner.Schema.Compile
import GridcoreRunner.Schema.CompiledFrames
import GridcoreRunner.Schema.Native
import GridcoreRunner.Schema.Gemma
import GridcoreRunner.Schema.TurnFrames
import GridcoreRunner.Lanes
import GridcoreRunner.Model.Mixer
import GridcoreRunner.Model.Ring
import GridcoreRunner.Model.Chunked
import GridcoreRunner.Model.Batches
import GridcoreRunner.Pool.Protocol
import GridcoreRunner.Pool.Invariant
import GridcoreRunner.Pool.Workers
import GridcoreRunner.Pool.Caller
import GridcoreRunner.Pool.Account
import GridcoreRunner.Pool.Turns
import GridcoreRunner.Pool.Safety
import GridcoreRunner.RingBuffer
import GridcoreRunner.Server.Admission
import GridcoreRunner.Server.AdmissionRuns
import GridcoreRunner.BlockHash
import GridcoreRunner.Envelope.Sha256
import GridcoreRunner.Http.Request
import GridcoreRunner.Extract
import GridcoreRunner.Model.Router
import GridcoreRunner.Model.Experts
import GridcoreRunner.Base64
import GridcoreRunner.Server.Embeddings
import GridcoreRunner.Tokenizer.HashTable
import GridcoreRunner.Server.Instances
