import U7s.Store.Horizons
import U7s.Store.OpenHistory
import U7s.Handlers.WatchResponse
import U7s.Store.Reports
import U7s.Handlers.Revocation
import U7s.Handlers.Deletion
import U7s.Handlers.Budget
import U7s.Node.Registration
import U7s.Node.MirrorPods
import U7s.Scheduler.Exclusive
import U7s.Scheduler.Capacity
import U7s.Quota.Limits
import U7s.Quota.Quantities
import U7s.Certificates.Identity
import U7s.Auth.Impersonation
import U7s.Auth.Queries
import U7s.Auth.Tokens
import U7s.Services.Uniqueness
import U7s.Store.Tombstones
import U7s.Handlers.SelectorText
import U7s.Handlers.Listing
import U7s.Scheduler.Terms
import U7s.Scheduler.Feed
import U7s.Rbac.Holding
import U7s.Patch.Scan
import U7s.Patch.Directives
import U7s.FieldManager.Fields
import U7s.Auth.SaKeys
import U7s.Handlers.LogLimit
import U7s.Handlers.Pruning
import U7s.Handlers.ContextCache
