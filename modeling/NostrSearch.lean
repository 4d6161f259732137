import NostrSearch.Indexer.Checkpoint
import NostrSearch.Indexer.LiveReplay
import NostrSearch.Indexer.ResumedRebuild
import NostrSearch.Stats.CountOnce
import NostrSearch.Stats.FollowOrder
import NostrSearch.Stats.FollowTally
import NostrSearch.Stats.Followers
import NostrSearch.Stats.Watermark
import NostrSearch.Core.Text
import NostrSearch.Lib.Buckets
import NostrSearch.Server.Reports
import NostrSearch.Server.Subscribers
import NostrSearch.Stats.DeltaExact
import NostrSearch.Stats.Solo
import NostrSearch.Indexer.LiveResets
import NostrSearch.Indexer.SpotRebuild
import NostrSearch.Indexer.Trust
import NostrSearch.Server.Delivery
import NostrSearch.Stats.FirstSeen
import NostrSearch.Stats.Store
import NostrSearch.Indexer.GrowingReplay
import NostrSearch.Server.SharedIndex
import NostrSearch.Server.Pruning
import NostrSearch.Core.Findable
import NostrSearch.Indexer.GapFetch
import NostrSearch.Indexer.Midnight
import NostrSearch.Server.FirstHits
import NostrSearch.Server.GrowingRoot
import NostrSearch.Indexer.Targets
import NostrSearch.Indexer.Standing
import NostrSearch.Indexer.PassEnd
import NostrSearch.Indexer.Retired
import NostrSearch.Indexer.Verdicts
import NostrSearch.Indexer.RelayReset
import NostrSearch.Server.Nip98
import NostrSearch.Server.SubmitForward
import NostrSearch.Dashboard.MergePatch
import NostrSearch.Dashboard.Reports
import NostrSearch.Dashboard.Seeding
import NostrSearch.Indexer.PassChains
import NostrSearch.Indexer.RecordLayouts
import NostrSearch.Lib.Budget
import NostrSearch.Server.Strfry
import NostrSearch.Server.StrfryLayout
import NostrSearch.Server.StrfryWalk
import NostrSearch.Server.UploadFiles
import NostrSearch.Server.UploadRecovery
import NostrSearch.Stats.Cascade
import NostrSearch.Stats.FirstDays
import NostrSearch.Stats.Layering
import NostrSearch.Core.Geohash
import NostrSearch.Core.Nip19Encodings
import NostrSearch.Core.QueryPanics
import NostrSearch.Core.RelayUrl
import NostrSearch.Core.Tokenizer
import NostrSearch.Indexer.RejectedEvents
import NostrSearch.Indexer.UsageCut
import NostrSearch.Server.Profiles
import NostrSearch.Server.SyncStatus
import NostrSearch.Core.Lowercase
import NostrSearch.Indexer.BatchLookup
import NostrSearch.Server.LineFraming
import NostrSearch.Stats.ActivityTotals
import NostrSearch.Stats.ClientBuckets
import NostrSearch.Stats.FoldOverflow
import NostrSearch.Stats.PagerankMass
import NostrSearch.Stats.Sketches
import NostrSearch.Stats.Throughput
import NostrSearch.Stats.TrendingAuthors
import NostrSearch.Stats.TrendingMentions
import NostrSearch.Server.ReaderCache
import NostrSearch.Lib.OrderedStore
import NostrSearch.Lib.Ranking
import NostrSearch.Core.DateOrder
import NostrSearch.Indexer.StateDb
import NostrSearch.Indexer.RelayScan
import NostrSearch.Indexer.IngestCounts
import NostrSearch.Indexer.LiveUnits
import NostrSearch.Server.Writer
import NostrSearch.Server.IngestSlot
import NostrSearch.Server.ScrapeProgress
import NostrSearch.Server.SearchPages
import NostrSearch.Server.SearchRequests
import NostrSearch.Server.RelayDiscovery
import NostrSearch.Server.ArchiveFiles
import NostrSearch.Server.SubmitPool
import NostrSearch.Stats.RelayCounts
