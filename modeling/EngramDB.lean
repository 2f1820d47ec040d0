import EngramDB.Foundations.Outcome
import EngramDB.Foundations.Machine
import EngramDB.Foundations.Slots
import EngramDB.Foundations.Census
import EngramDB.Foundations.Chunks
import EngramDB.Foundations.Grouping
import EngramDB.Foundations.Sorting
import EngramDB.Foundations.Refill
import EngramDB.Foundations.Ngram
import EngramDB.Foundations.NumberLines
import EngramDB.Foundations.Streaming
import EngramDB.Foundations.Runs
import EngramDB.Foundations.OrderedDict
import EngramDB.Foundations.Tally
import EngramDB.Foundations.TopK
import EngramDB.Foundations.Text
import EngramDB.Foundations.Json
import EngramDB.Foundations.Base64
import EngramDB.Core.Layout
import EngramDB.Io.Backend
import EngramDB.Io.Batch
import EngramDB.Io.Pool
import EngramDB.Io.Pool.Invariant
import EngramDB.Io.Pool.Work
import EngramDB.Io.Pool.Panics
import EngramDB.Io.Uring
import EngramDB.Io.Uring.Reads
import EngramDB.Io.Batch.Structure
import EngramDB.Io.Batch.Exact
import EngramDB.Io.Batch.ShortReads
import EngramDB.Io.Batch.Machine
import EngramDB.Io.Batch.Machine.Fits
import EngramDB.Io.Batch.Badges
import EngramDB.Io.Batch.WholeBadges
import EngramDB.Io.Batch.ElementSize
import EngramDB.Io.Batch.Plans
import EngramDB.Io.Batch.Agreement
import EngramDB.Io.Batch.Open
import EngramDB.Core.Store
import EngramDB.Io.View
import EngramDB.Io.View.Reads
import EngramDB.Io.View.Build
import EngramDB.Io.View.Written
import EngramDB.Io.View.Streaming
import EngramDB.Io.View.Grams
import EngramDB.Io.View.Built
import EngramDB.Io.View.KeysFile
import EngramDB.Io.View.Verify
import EngramDB.Io.View.Rebuild
import EngramDB.Foundations.Window
import EngramDB.Io.Planner
import EngramDB.Io.Planner.Window
import EngramDB.Io.Planner.Resident
import EngramDB.Io.Planner.Settled
import EngramDB.Cli.Build
import EngramDB.Cli.View.Runs
import EngramDB.Cli.View.Verified
import EngramDB.Native
import EngramDB.Serve.Base64
import EngramDB.Serve
import EngramDB.Serve.Crashes
import EngramDB.Serve.ViewRead
import EngramDB.Serve.Rows
import EngramDB.Foundations.Effect
import EngramDB.Foundations.Framing
import EngramDB.Serve.Session
import EngramDB.Serve.Session.Replies
import EngramDB.Keygen.Primes
import EngramDB.Keygen.Shift
import EngramDB.Keygen.Spec
import EngramDB.Keygen.Real
import EngramDB.Keygen.Search
import EngramDB.Python.Basic
import EngramDB.Python.Rowids
import EngramDB.Python.PleMemory
import EngramDB.Python.Json
import EngramDB.Python.Bundle
import EngramDB.Python.Bundle.Opens
import EngramDB.Python.Streaming
import EngramDB.Python.Chunking
import EngramDB.Python.PleSequenceStore
import EngramDB.Python.RealRows
import EngramDB.Python.Extension
import EngramDB.Python.Pool
import EngramDB.Python.Pool.Leases
import EngramDB.Python.DiskPleEmbedding
import EngramDB.Python.DiskPleEmbedding.ReadThrough
import EngramDB.Python.DiskSlotIndex
import EngramDB.Python.DiskSlotIndex.Build
import EngramDB.Python.DiskSlotIndex.NativeReads
import EngramDB.Python.SlotIndex
import EngramDB.Python.StoreAgreement
import EngramDB.Scripts.RefPleHash
import EngramDB.Scripts.Agreement
import EngramDB.Scripts.Extracted
import EngramDB.Scripts.ViewKeys
import EngramDB.Cli.Tokens
import EngramDB.Cli.PrepRuns
import EngramDB.Cli.Prep
import EngramDB.Cli.RealTable
import EngramDB.Foundations.LittleEndian
import EngramDB.Core.CountIndex
import EngramDB.Core.CountIndex.Streams
import EngramDB.Io.Tiers
import EngramDB.Io.Tiers.Streams
import EngramDB.Foundations.SortedSearch
import EngramDB.Foundations.Bucketing
import EngramDB.SlotIndex.Records
import EngramDB.SlotIndex.Build
import EngramDB.SlotIndex.Reader
import EngramDB.SlotIndex.KeysReaders
import EngramDB.SlotIndex.Panics
import EngramDB.SlotIndex.Denotes
import EngramDB.SlotIndex.Rebuild
import EngramDB.SlotIndex.Verify
import EngramDB.Foundations.Tensor
import EngramDB.Python.PleSequenceStore.Batches
import EngramDB.Python.Adapter
import EngramDB.Python.Adapter.Retry
import EngramDB.Python.Adapter.Shapes
import EngramDB.Python.MultiHead
import EngramDB.Python.Vllm
import EngramDB.Python.AddressableMemory
import EngramDB.Python.AddressableMemory.Retrieve
import EngramDB.Python.DiskPleEmbedding.Bookkeeping
import EngramDB.Python.DiskPleEmbedding.Refinement
import EngramDB.Python.NGramEmbedding
import EngramDB.Python.NGramEmbedding.Retry
import EngramDB.Python.NGramEmbedding.Native
import EngramDB.V41.HashState.Cuts
import EngramDB.V41.HashState.Exact
import EngramDB.Python.TargetReader.Manifest
