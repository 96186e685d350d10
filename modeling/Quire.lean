import Quire.Action
import Quire.Cache.Adapter
import Quire.Cache.Glob
import Quire.Cache.Keys
import Quire.Cache.Memory
import Quire.Cache.Plugin
import Quire.Cache.Stats
import Quire.Cursor
import Quire.Document.Id
import Quire.Document.Path
import Quire.Fault
import Quire.Hook
import Quire.Json.Order
import Quire.Json.Printer
import Quire.Json.Reader
import Quire.Json.Value
import Quire.Keyset
import Quire.Number.Binary64
import Quire.Number.Powers
import Quire.Number.Shortest
import Quire.Page
import Quire.Paging
import Quire.Proofs.AdapterWrites
import Quire.Proofs.AggregatedPages
import Quire.Proofs.Base64Url
import Quire.Proofs.BulkWrites
import Quire.Proofs.CacheAccounts
import Quire.Proofs.CacheCalls
import Quire.Proofs.CacheCounters
import Quire.Proofs.CacheMemories
import Quire.Proofs.CachedOperations
import Quire.Proofs.CachedRuns
import Quire.Proofs.CachedStores
import Quire.Proofs.CanonicalOrders
import Quire.Proofs.ClearedCollections
import Quire.Proofs.CombinedFilters
import Quire.Proofs.CommittedWrites
import Quire.Proofs.CopiedFields
import Quire.Proofs.CreatedDocuments
import Quire.Proofs.CursorTokens
import Quire.Proofs.Decimal
import Quire.Proofs.DocumentFreshness
import Quire.Proofs.EventOrder
import Quire.Proofs.ExactSums
import Quire.Proofs.FloatText
import Quire.Proofs.FollowedActions
import Quire.Proofs.GivenTokens
import Quire.Proofs.GlobMatching
import Quire.Proofs.GroupedDocuments
import Quire.Proofs.HarmlessCaching
import Quire.Proofs.HookedRepositories
import Quire.Proofs.Identifiers
import Quire.Proofs.InterleavedLists
import Quire.Proofs.InterleavedLookups
import Quire.Proofs.Interleavings
import Quire.Proofs.IssuedTokens
import Quire.Proofs.JsonText
import Quire.Proofs.KeptEntries
import Quire.Proofs.KeptReads
import Quire.Proofs.KeySpace
import Quire.Proofs.KeysetFilters
import Quire.Proofs.KeysetSelections
import Quire.Proofs.ListFreshness
import Quire.Proofs.ListInvalidation
import Quire.Proofs.Listings
import Quire.Proofs.LiveCursors
import Quire.Proofs.NumberedPages
import Quire.Proofs.Numerals
import Quire.Proofs.OrderLaws
import Quire.Proofs.OvertakenReads
import Quire.Proofs.PagingFaults
import Quire.Proofs.PatchedIdentifiers
import Quire.Proofs.PatchedPaths
import Quire.Proofs.PathWrites
import Quire.Proofs.Positions
import Quire.Proofs.ProjectedIdentifiers
import Quire.Proofs.ProjectedPages
import Quire.Proofs.ReadIdentities
import Quire.Proofs.RefusedWrites
import Quire.Proofs.RepositoryCalls
import Quire.Proofs.RequestKeys
import Quire.Proofs.Restarts
import Quire.Proofs.ResultTexts
import Quire.Proofs.Rounding
import Quire.Proofs.ShortestDigits
import Quire.Proofs.SortShorthands
import Quire.Proofs.SortTexts
import Quire.Proofs.StoredDocuments
import Quire.Proofs.StoredIdentities
import Quire.Proofs.Streams
import Quire.Proofs.TimedEntries
import Quire.Proofs.TotalOrders
import Quire.Proofs.Traversals
import Quire.Proofs.UnharmedTurns
import Quire.Proofs.Utf8
import Quire.Proofs.ValueOrder
import Quire.Proofs.Values
import Quire.Proofs.WrittenForms
import Quire.Query.Filter
import Quire.Query.Pipeline
import Quire.Query.Sort
import Quire.Repository
import Quire.Request
import Quire.Settings.Basic
import Quire.Settings.Layers
import Quire.Settings.Scalar
import Quire.Settings.Toml
import Quire.Settings.Tree
import Quire.Store
import Quire.Store.Calls
import Quire.Store.Collection
import Quire.Store.Group
import Quire.Store.Pipeline
import Quire.Text.Blank
import Quire.Text.Utf8
import Quire.Token.Base64Url
import Quire.Token.Sha256
import Quire.Wire.Hook
import Quire.Wire.Page
import Quire.Wire.Query
import Quire.Wire.Record
import Quire.Wire.Request
import Quire.Wire.Settings
