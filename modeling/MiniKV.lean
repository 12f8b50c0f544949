import MiniKV.Lib.Volatile
import MiniKV.Lib.Prog
import MiniKV.Lib.Merge
import MiniKV.Basic
import MiniKV.MemTable
import MiniKV.Version
import MiniKV.FileSystem
import MiniKV.Format
import MiniKV.Compaction
import MiniKV.Database
import MiniKV.Open
import MiniKV.System
import MiniKV.Codec.Coding
import MiniKV.Codec.Manifest
import MiniKV.Codec.Wal
import MiniKV.Codec.Bloom
import MiniKV.Codec.Table
import MiniKV.Codec.Blocks
import MiniKV.Codec.Regions
import MiniKV.Codec.RoundTrip
import MiniKV.Lib.Search
import MiniKV.Codec.Reader
import MiniKV.Codec.EndToEnd
import MiniKV.Codec.Lawful
import MiniKV.Codec.Portable
import MiniKV.Scan
import MiniKV.Scan.Token
import MiniKV.Scan.Exact
import MiniKV.Scan.Iterator
import MiniKV.Scan.Pages
import MiniKV.Compaction.Build
import MiniKV.Compaction.Plan
import MiniKV.Compaction.Effect
import MiniKV.Storage.Frame
import MiniKV.Storage.Spec
import MiniKV.Storage.Publish
import MiniKV.Storage.Outputs
import MiniKV.Storage.Log
import MiniKV.Storage.Image
import MiniKV.Storage.Recoverable
import MiniKV.State.Contents
import MiniKV.State.Flush
import MiniKV.State.Compact
import MiniKV.State.Stored
import MiniKV.State.Maintained
import MiniKV.State.Logged
import MiniKV.State.Invariant
import MiniKV.Storage.Acts
import MiniKV.State.Steps
import MiniKV.Recovery
import MiniKV.Storage.FaultFree
import MiniKV.Opening
import MiniKV.Sections.Steady
import MiniKV.Sections.Flush
import MiniKV.Sections.Compact
import MiniKV.Sections.Locked
import MiniKV.Sections.Append
import MiniKV.Sections.Write
import MiniKV.Lib.Altered
import MiniKV.Codec.Checksum
import MiniKV.Damage
import MiniKV.WritePath
import MiniKV.State.Kept
import MiniKV.Sections.Opened
import MiniKV.Sections.Foreground
import MiniKV.Runs
import MiniKV.State.Account
import MiniKV.Tokens
import MiniKV.Consistency
import MiniKV.Compaction.Preserves
import MiniKV.Durability
import MiniKV.Names
import MiniKV.MemTable.LastWrite
import MiniKV.Codec.Allocation
import MiniKV.Codec.Tuning
import MiniKV.Lib.Interval
import MiniKV.Scan.Prefix
import MiniKV.Sections.Worker
import MiniKV.Sections.Threads
import MiniKV.Modes
import MiniKV.Background
import MiniKV.Interleavings
import MiniKV.Sections.Members
import MiniKV.Sections.Calm
import MiniKV.Scan.Agreement
import MiniKV.Completion
import MiniKV.Progress
import MiniKV.WritePath.Sessions
import MiniKV.Memory
