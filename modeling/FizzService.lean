import FizzService.Cache.Session
import FizzService.Gate.Session
import FizzService.Http.Service
import FizzService.Proofs.CacheKey
import FizzService.Proofs.Store.Recency
import FizzService.Proofs.Store.Bounded
import FizzService.Proofs.Cache.Access
import FizzService.Proofs.Gate
import FizzService.Proofs.Cache.Response
import FizzService.Proofs.Cache.Settle
import FizzService.Proofs.Cache.Perform
import FizzService.Proofs.Cache.Filing
import FizzService.Proofs.Cache.Provenance
import FizzService.Proofs.Cache.Queue
import FizzService.Proofs.Cache.Ownership
import FizzService.Proofs.Cache.Coalescing
import FizzService.Proofs.Cache.Faithful
import FizzService.Proofs.Http.Run
import FizzService.Proofs.Http.Transparency
import FizzService.Proofs.Cache.Stale
import FizzService.Proofs.Cache.Record
import FizzService.Proofs.Cache.Confined
import FizzService.Proofs.Cache.View
import FizzService.Proofs.Cache.Independence
import FizzService.Proofs.Cache.Drain
import FizzService.Proofs.Cache.Accounts
import FizzService.Proofs.Http.Start
import FizzService.Proofs.Text.Form
import FizzService.Proofs.Query
import FizzService.Proofs.Http.Delivery
import FizzService.Proofs.Cache.Sweep
import FizzService.Proofs.Cache.Invalidation
import FizzService.Proofs.RequestCounter
import FizzService.Proofs.Http.Metrics
import FizzService.Proofs.Http.Format
import FizzService.Proofs.Store.Shelf
import FizzService.Proofs.Cache.Loss
import FizzService.Proofs.Cache.Peek
import FizzService.Proofs.Cache.Failure
import FizzService.Proofs.Gate.Session
import FizzService.Proofs.Validation
import FizzService.Proofs.Cache.Worker
import FizzService.Proofs.Cache.Cancellation
import FizzService.Proofs.RefreshQueue
import FizzService.Proofs.Cache.Limits
import FizzService.Proofs.Sequence
import FizzService.Proofs.Json.ReadBack
import FizzService.Proofs.Settings
import FizzService.Proofs.Store.UseOrder
