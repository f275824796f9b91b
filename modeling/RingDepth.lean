import RingDepth.Bootstrap.InTree
import RingDepth.Checkpoints.Listing
import RingDepth.CommandLine.Run
import RingDepth.Ledger.Basic
import RingDepth.LogFormat
import RingDepth.Main
import RingDepth.Number.Elapsed
import RingDepth.Spent.Analysis
import RingDepth.Spent.Scan
import RingDepth.Store.Integrity
import RingDepth.Store.Memory
import RingDepth.Store.Schema
import RingDepth.Text.Toml.Document
import RingDepth.Trace.Report
import RingDepth.Trace.Search
import RingDepth.Workspace
import RingDepth.Proofs.Bootstrap.AnyBytes
import RingDepth.Proofs.Bootstrap.Archive
import RingDepth.Proofs.Bootstrap.Chunking
import RingDepth.Proofs.Bootstrap.Contents
import RingDepth.Proofs.Bootstrap.Coverage
import RingDepth.Proofs.Bootstrap.Cursor
import RingDepth.Proofs.Bootstrap.Cutting
import RingDepth.Proofs.Bootstrap.Export
import RingDepth.Proofs.Bootstrap.Frame
import RingDepth.Proofs.Bootstrap.Framing
import RingDepth.Proofs.Bootstrap.Heights
import RingDepth.Proofs.Bootstrap.Import
import RingDepth.Proofs.Bootstrap.Layout
import RingDepth.Proofs.Bootstrap.Overlap
import RingDepth.Proofs.Bootstrap.Replay
import RingDepth.Proofs.Bootstrap.Resuming
import RingDepth.Proofs.Bootstrap.RoundTrip
import RingDepth.Proofs.Bootstrap.Session
import RingDepth.Proofs.Bootstrap.Shift
import RingDepth.Proofs.Bootstrap.Writer
import RingDepth.Proofs.Bootstrap.Written
import RingDepth.Proofs.Bytes
import RingDepth.Proofs.Checkpoints.Ending
import RingDepth.Proofs.Checkpoints.Freezing
import RingDepth.Proofs.Checkpoints.Loading
import RingDepth.Proofs.Checkpoints.Merging
import RingDepth.Proofs.Checkpoints.Pinning
import RingDepth.Proofs.Codec.Conversion
import RingDepth.Proofs.Codec.Exact
import RingDepth.Proofs.Codec.Lawful
import RingDepth.Proofs.Codec.Record
import RingDepth.Proofs.Codec.Size
import RingDepth.Proofs.Files.Tree
import RingDepth.Proofs.Hex
import RingDepth.Proofs.Identifier
import RingDepth.Proofs.Ledger.Append
import RingDepth.Proofs.Ledger.Chain
import RingDepth.Proofs.Ledger.Confirmation
import RingDepth.Proofs.Ledger.ContentAddress
import RingDepth.Proofs.Ledger.Creation
import RingDepth.Proofs.Ledger.Growth
import RingDepth.Proofs.Ledger.Intact
import RingDepth.Proofs.Ledger.Interleaving
import RingDepth.Proofs.Ledger.Numbering
import RingDepth.Proofs.Ledger.Owner
import RingDepth.Proofs.Ledger.ReadBack
import RingDepth.Proofs.Ledger.Refusal
import RingDepth.Proofs.Ledger.Run
import RingDepth.Proofs.Ledger.SharedKeys
import RingDepth.Proofs.Ledger.Sharing
import RingDepth.Proofs.Ledger.Stability
import RingDepth.Proofs.Ledger.Termination
import RingDepth.Proofs.Ledger.Tracing
import RingDepth.Proofs.Offsets
import RingDepth.Proofs.Spent.Grammar
import RingDepth.Proofs.Spent.Partition
import RingDepth.Proofs.Spent.RoundAmounts
import RingDepth.Proofs.Spent.Scanning
import RingDepth.Proofs.Spent.Sections
import RingDepth.Proofs.Spent.Tally
import RingDepth.Proofs.Spent.Totals
import RingDepth.Proofs.Store.Alike
import RingDepth.Proofs.Store.Batches
import RingDepth.Proofs.Store.Calls
import RingDepth.Proofs.Store.Holdings
import RingDepth.Proofs.Store.IndexRuns
import RingDepth.Proofs.Store.Indexing
import RingDepth.Proofs.Store.Integrity
import RingDepth.Proofs.Store.Memory
import RingDepth.Proofs.Store.Overwriting
import RingDepth.Proofs.Store.Puts
import RingDepth.Proofs.Store.Staging
import RingDepth.Proofs.Store.Tables
import RingDepth.Proofs.Store.Taking
import RingDepth.Proofs.Text.Blank
import RingDepth.Proofs.Text.Lines
import RingDepth.Proofs.Trace.Counting
import RingDepth.Proofs.Trace.Distance
import RingDepth.Proofs.Trace.Ending
import RingDepth.Proofs.Trace.Exhaustion
import RingDepth.Proofs.Trace.Failures
import RingDepth.Proofs.Trace.Grading
import RingDepth.Proofs.Trace.Intact
import RingDepth.Proofs.Trace.Limit
import RingDepth.Proofs.Trace.Middle
import RingDepth.Proofs.Trace.Ownership
import RingDepth.Proofs.Trace.PlainSearch
import RingDepth.Proofs.Trace.Report
import RingDepth.Proofs.Trace.Strictness
import RingDepth.Proofs.Trace.Work
