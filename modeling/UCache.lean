import UCache.Lib.Loop
import UCache.Lib.Run
import UCache.Lib.Bytes
import UCache.Lib.Log
import UCache.Lib.Endian
import UCache.Lib.Parse
import UCache.Lib.Search
import UCache.Lib.Spans
import UCache.Lib.Checked
import UCache.Lib.Tiles
import UCache.Lib.Json
import UCache.Core.MetaFile
import UCache.Core.Xxh3
import UCache.Core.FileEntry
import UCache.Core.Deltas
import UCache.Core.Sections
import UCache.Core.Sidecar
import UCache.Core.SidecarCodec
import UCache.Core.EntryMachine
import UCache.Core.CacheStore
import UCache.Core.MetaImage
import UCache.Core.Reopen
import UCache.Core.Parking
import UCache.Core.Commits
import UCache.Core.Stage
import UCache.Core.Holes
import UCache.Core.Reading
import UCache.Core.World
import UCache.Core.Integrity
import UCache.Core.SlotStore
import UCache.Core.SlotOffsets
import UCache.Core.SlotBlock
import UCache.Core.SlotLog
import UCache.Transpose.Key
import UCache.Transpose.Frames
import UCache.Transpose.FillLayout
import UCache.Transpose.FileHeader
import UCache.Transpose.FrameTrip
import UCache.Transpose.BasketSlot
import UCache.Transpose.RNTupleLayout
import UCache.Transpose.RNTupleParse
import UCache.Transpose.RNTupleRewrite
import UCache.Transpose.Superseded
import UCache.Transpose.TreeOverlay
import UCache.Transpose.TreeMeta
import UCache.Transpose.TreeSafe
import UCache.Transpose.OriginMap
import UCache.Core.Eviction
import UCache.Core.OneForm
import UCache.Core.EvictRace
import UCache.Plugin.ColdAnswers
import UCache.Plugin.ColdFill
import UCache.Plugin.ColdRequest
import UCache.Plugin.VirtualImage
import UCache.Plugin.ColdSlots
import UCache.Plugin.SlotClaims
import UCache.Plugin.SlotOwners
import UCache.Plugin.SlotRelease
import UCache.Plugin.SlotRun
import UCache.Plugin.ShownLayout
import UCache.Plugin.ShardQueue
import UCache.Core.Settings
import UCache.Core.SizeTexts
import UCache.Plugin.LayoutBlob
import UCache.Plugin.LayoutServe
import UCache.Plugin.Stitched
import UCache.Plugin.VectorReads
import UCache.Plugin.MissedChunks
import UCache.Plugin.PrefetchReads
import UCache.Plugin.PrefetchStages
import UCache.Core.StagePools
import UCache.Core.PoolWorld
import UCache.Core.WriteOuts
import UCache.Core.ReadAhead
import UCache.Core.ReplicaCodec
import UCache.Core.ReplicaFile
import UCache.Core.ReplicaView
import UCache.Core.OriginRanges
import UCache.Core.ReplicaStore
import UCache.Core.ReplicaAdopt
import UCache.Core.ReplicaPublish
import UCache.Core.ReplicaRuns
import UCache.Core.Releases
import UCache.Core.Presence
import UCache.Core.CachedReads
import UCache.Core.FillStock
import UCache.Core.FillPaths
import UCache.Transpose.UntrustedBuild
import UCache.Transpose.RNTupleReaddress
import UCache.Transpose.ReadShares
import UCache.Cli.JsonDump
import UCache.Cli.Redact
import UCache.Cli.RunLog
import UCache.Core.KeyTokens
import UCache.Core.PresenceRuns
import UCache.Plugin.ReadCuts
import UCache.Core.FootprintRuns
import UCache.Plugin.FillProcess
import UCache.Plugin.SlotReadRuns
import UCache.Plugin.ShownReads
import UCache.Lib.Leases
import UCache.Plugin.InnerFile
import UCache.Plugin.BasketMap
import UCache.Plugin.ReadAhead
import UCache.Plugin.ReadAheadRuns
import UCache.Lib.Slots
import UCache.Plugin.Executor
import UCache.Lib.Retry
import UCache.Plugin.OpenRetry
import UCache.Plugin.SingleReads
import UCache.Plugin.SingleReadRuns
import UCache.Transpose.RNTupleWalk
