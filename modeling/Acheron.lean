import Acheron.Lib.Runs
import Acheron.Lib.Keyed
import Acheron.Lib.Token
import Acheron.Event.Document
import Acheron.Storage.Mongo
import Acheron.Queue.DeadLetter
import Acheron.Queue.EventQueue
import Acheron.Worker.Dispatch
import Acheron.Api.Replay
import Acheron.Worker.Process
import Acheron.Worker.Poison
import Acheron.Cache.Idempotency
import Acheron.Event.Iso
import Acheron.Event.IsoRead
import Acheron.Storage.Elastic
import Acheron.Worker.EsIndexer
import Acheron.Worker.Pool
import Acheron.Worker.Shutdown
import Acheron.Event.Canonical
import Acheron.Api.Fingerprint
import Acheron.Api.CreateEvent
import Acheron.Api.Refusal
import Acheron.Api.Acknowledged
import Acheron.Storage.Batching
import Acheron.Lib.Paging
import Acheron.Storage.Filter
import Acheron.Api.Listing
import Acheron.Cache.Keys
import Acheron.Cache.RateLimit
import Acheron.Api.Lifetimes
import Acheron.Lib.Grouping
import Acheron.Storage.Stats
import Acheron.Worker.Rollup
import Acheron.Api.Stats
import Acheron.Storage.Search
import Acheron.Worker.Drain
import Acheron.Worker.Backlog
import Acheron.Worker.Mirror
import Acheron.Api.Cleared
import Acheron.Lib.Ledger
import Acheron.Worker.Mapping
import Acheron.Worker.Metrics
import Acheron.Worker.Retry
import Acheron.Api.Restored
import Acheron.Lib.Draining
import Acheron.Worker.Backfill
import Acheron.Lib.Flushing
import Acheron.Queue.Serial
import Acheron.Api.Totals
import Acheron.Storage.Recent
import Acheron.Event.JsonRead
import Acheron.Cache.CacheAside
import Acheron.Cache.Counters
import Acheron.Lib.Walk
import Acheron.Storage.SearchText
import Acheron.Lib.Ranking
import Acheron.Worker.InHand
import Acheron.Worker.Progress
import Acheron.Api.Gauges
import Acheron.Worker.Origin
import Acheron.Worker.Order
import Acheron.Api.Limited
import Acheron.Api.Realtime
import Acheron.App.Platform
import Acheron.Lib.CatchUp
import Acheron.App.Outbox
import Acheron.Api.SearchEvents
import Acheron.App.Searched
import Acheron.Worker.TimedOut
