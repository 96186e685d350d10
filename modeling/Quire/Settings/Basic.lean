import Quire.Fault
import Quire.Text.Blank
/-!
# Settings

The settings of an application, their defaults, and the conditions on them.
-/
namespace Quire

/-- Name and environment of an application. -/
structure AppSettings where
  name : String := "folio"
  environment : String := "development"
deriving DecidableEq, Repr

/-- How lists are cut into pages. -/
structure PagingSettings where
  /-- The page size of a request without one. -/
  defaultLimit : Nat := 20
  /-- The largest page size. -/
  maxLimit : Nat := 100
  /-- Pages beyond this number carry a warning. -/
  deepPageThreshold : Nat := 100
  /-- The format version of cursors. -/
  cursorVersion : Nat := 1
  /-- The field that identifies a document. -/
  idField : String := "_id"
  /-- Whether unfiltered offset requests take the store's estimate for their total. -/
  estimatedCount : Bool := false
deriving DecidableEq, Repr

/-- Where cache entries are kept. -/
inductive CacheBackend where
  | memory
  | redis
deriving DecidableEq, Repr

/-- How reads are cached. Times are in seconds. -/
structure CacheSettings where
  enabled : Bool := true
  backend : CacheBackend := .memory
  /-- The namespace of all keys. -/
  keyPrefix : String := "folio:cache"
  byIdTtl : Nat := 300
  queryTtl : Nat := 60
  listTtl : Nat := 120
  versionTtl : Nat := 2592000
  /-- List requests for more than this bypass the cache. -/
  maxListLimit : Nat := 100
  /-- The capacity of the in-memory cache. -/
  memoryMaxEntries : Nat := 10000
deriving DecidableEq, Repr

/-- How to reach a cache server. -/
structure RedisSettings where
  url : String := "redis://localhost:6379"
  poolSize : Nat := 10
deriving DecidableEq, Repr

/-- The form of log lines. -/
inductive LogFormat where
  | pretty
  | json
deriving DecidableEq, Repr

/-- Logging and metrics. -/
structure ObservabilitySettings where
  logLevel : String := "info"
  logFormat : LogFormat := .pretty
  metricsEnabled : Bool := true
deriving DecidableEq, Repr

/-- What a log subscriber is installed with. -/
structure TelemetrySettings where
  logLevel : String := "info,folio=debug"
  logFormat : LogFormat := .pretty
deriving DecidableEq, Repr

def ObservabilitySettings.telemetry (o : ObservabilitySettings) : TelemetrySettings :=
  ⟨o.logLevel, o.logFormat⟩

/-- All settings of an application. -/
structure Settings where
  app : AppSettings := {}
  pagination : PagingSettings := {}
  cache : CacheSettings := {}
  redis : RedisSettings := {}
  observability : ObservabilitySettings := {}
deriving DecidableEq, Repr

instance : Inhabited Settings := ⟨{}⟩
instance : Inhabited PagingSettings := ⟨{}⟩

/-- The first condition that paging settings break. -/
def PagingSettings.problem? (p : PagingSettings) : Option String :=
  if p.maxLimit = 0 then some "pagination.max_limit must be positive"
  else if p.defaultLimit = 0 ∨ p.maxLimit < p.defaultLimit then
    some "pagination.default_limit must be between 1 and max_limit"
  else if p.cursorVersion = 0 then some "pagination.cursor_version must be positive"
  else if Text.isBlankText p.idField then some "pagination.id_field is required"
  else none

/-- The first condition that cache settings break. -/
def CacheSettings.problem? (c : CacheSettings) : Option String :=
  if Text.isBlankText c.keyPrefix then some "cache.key_prefix is required"
  else if c.byIdTtl = 0 ∨ c.queryTtl = 0 ∨ c.listTtl = 0 ∨ c.versionTtl = 0 then
    some "cache TTLs must be positive"
  else none

/-- The first condition that settings break. -/
def Settings.problem? (s : Settings) : Option String :=
  s.pagination.problem? <|> s.cache.problem? <|>
    if s.cache.enabled ∧ s.cache.backend = .redis ∧ s.redis.url = "" then
      some "Redis URL is required for the redis cache backend"
    else none

/-- Refuses settings that break a condition. -/
def Settings.validate (s : Settings) : Except Fault Unit :=
  match s.problem? with
  | some text => .error (.configuration text)
  | none => .ok ()

end Quire
