import Quire.Document.Path
import Quire.Settings.Basic
import Quire.Wire.Record
/-!
# Written forms of settings

Every field has a default and may be missing.
-/
namespace Quire

open Wire

namespace AppSettings

def toValue (s : AppSettings) : Value :=
  .obj [("name", .str s.name), ("environment", .str s.environment)]

def read? (v : Value) : Option AppSettings := do
  match ← slots? ["name", "environment"] v with
  | [name, environment] =>
    let d : AppSettings := {}
    some ⟨← name.orElse d.name string?, ← environment.orElse d.environment string?⟩
  | _ => none

end AppSettings

instance : Written AppSettings := ⟨AppSettings.toValue, AppSettings.read?⟩

namespace PagingSettings

def toValue (s : PagingSettings) : Value :=
  .obj [("default_limit", .nat s.defaultLimit), ("max_limit", .nat s.maxLimit),
    ("deep_page_threshold", .nat s.deepPageThreshold), ("cursor_version", .nat s.cursorVersion),
    ("id_field", .str s.idField), ("estimated_count_when_unfiltered", .bool s.estimatedCount)]

def read? (v : Value) : Option PagingSettings := do
  match ← slots? ["default_limit", "max_limit", "deep_page_threshold", "cursor_version", "id_field",
    "estimated_count_when_unfiltered"] v with
  | [defaultLimit, maxLimit, deepPageThreshold, cursorVersion, idField, estimatedCount] =>
    let d : PagingSettings := {}
    some {
      defaultLimit := ← defaultLimit.orElse d.defaultLimit nat64?
      maxLimit := ← maxLimit.orElse d.maxLimit nat64?
      deepPageThreshold := ← deepPageThreshold.orElse d.deepPageThreshold nat64?
      cursorVersion := ← cursorVersion.orElse d.cursorVersion nat32?
      idField := ← idField.orElse d.idField string?
      estimatedCount := ← estimatedCount.orElse d.estimatedCount bool? }
  | _ => none

end PagingSettings

instance : Written PagingSettings := ⟨PagingSettings.toValue, PagingSettings.read?⟩

namespace CacheBackend

def words : List (String × CacheBackend) := [("memory", .memory), ("redis", .redis)]

def name : CacheBackend → String
  | .memory => "memory"
  | .redis => "redis"

end CacheBackend

namespace CacheSettings

def toValue (s : CacheSettings) : Value :=
  .obj [("enabled", .bool s.enabled), ("backend", .str s.backend.name),
    ("key_prefix", .str s.keyPrefix), ("by_id_ttl_secs", .nat s.byIdTtl),
    ("query_ttl_secs", .nat s.queryTtl), ("list_ttl_secs", .nat s.listTtl),
    ("version_ttl_secs", .nat s.versionTtl), ("max_list_limit", .nat s.maxListLimit),
    ("memory_max_entries", .nat s.memoryMaxEntries)]

def read? (v : Value) : Option CacheSettings := do
  match ← slots? ["enabled", "backend", "key_prefix", "by_id_ttl_secs", "query_ttl_secs",
    "list_ttl_secs", "version_ttl_secs", "max_list_limit", "memory_max_entries"] v with
  | [enabled, backend, keyPrefix, byIdTtl, queryTtl, listTtl, versionTtl, maxListLimit,
      memoryMaxEntries] =>
    let d : CacheSettings := {}
    some {
      enabled := ← enabled.orElse d.enabled bool?
      backend := ← backend.orElse d.backend (word? CacheBackend.words .strict)
      keyPrefix := ← keyPrefix.orElse d.keyPrefix string?
      byIdTtl := ← byIdTtl.orElse d.byIdTtl nat64?
      queryTtl := ← queryTtl.orElse d.queryTtl nat64?
      listTtl := ← listTtl.orElse d.listTtl nat64?
      versionTtl := ← versionTtl.orElse d.versionTtl nat64?
      maxListLimit := ← maxListLimit.orElse d.maxListLimit nat64?
      memoryMaxEntries := ← memoryMaxEntries.orElse d.memoryMaxEntries nat64? }
  | _ => none

end CacheSettings

instance : Written CacheSettings := ⟨CacheSettings.toValue, CacheSettings.read?⟩

namespace RedisSettings

def toValue (s : RedisSettings) : Value :=
  .obj [("url", .str s.url), ("pool_size", .nat s.poolSize)]

def read? (v : Value) : Option RedisSettings := do
  match ← slots? ["url", "pool_size"] v with
  | [url, poolSize] =>
    let d : RedisSettings := {}
    some ⟨← url.orElse d.url string?, ← poolSize.orElse d.poolSize nat64?⟩
  | _ => none

end RedisSettings

instance : Written RedisSettings := ⟨RedisSettings.toValue, RedisSettings.read?⟩

namespace LogFormat

def words : List (String × LogFormat) := [("pretty", .pretty), ("json", .json)]

def name : LogFormat → String
  | .pretty => "pretty"
  | .json => "json"

end LogFormat

namespace ObservabilitySettings

def toValue (s : ObservabilitySettings) : Value :=
  .obj [("log_level", .str s.logLevel), ("log_format", .str s.logFormat.name),
    ("metrics_enabled", .bool s.metricsEnabled)]

def read? (v : Value) : Option ObservabilitySettings := do
  match ← slots? ["log_level", "log_format", "metrics_enabled"] v with
  | [logLevel, logFormat, metricsEnabled] =>
    let d : ObservabilitySettings := {}
    some ⟨← logLevel.orElse d.logLevel string?,
      ← logFormat.orElse d.logFormat (word? LogFormat.words .strict),
      ← metricsEnabled.orElse d.metricsEnabled bool?⟩
  | _ => none

end ObservabilitySettings

instance : Written ObservabilitySettings :=
  ⟨ObservabilitySettings.toValue, ObservabilitySettings.read?⟩

namespace TelemetrySettings

def toValue (s : TelemetrySettings) : Value :=
  .obj [("log_level", .str s.logLevel), ("log_format", .str s.logFormat.name)]

def read? (v : Value) : Option TelemetrySettings := do
  match ← slots? ["log_level", "log_format"] v with
  | [logLevel, logFormat] =>
    let d : TelemetrySettings := {}
    some ⟨← logLevel.orElse d.logLevel string?,
      ← logFormat.orElse d.logFormat (word? LogFormat.words .strict)⟩
  | _ => none

end TelemetrySettings

instance : Written TelemetrySettings := ⟨TelemetrySettings.toValue, TelemetrySettings.read?⟩

namespace Settings

def toValue (s : Settings) : Value :=
  .obj [("app", s.app.toValue), ("pagination", s.pagination.toValue), ("cache", s.cache.toValue),
    ("redis", s.redis.toValue), ("observability", s.observability.toValue)]

def read? (v : Value) : Option Settings := do
  match ← slots? ["app", "pagination", "cache", "redis", "observability"] v with
  | [app, pagination, cache, redis, observability] =>
    some {
      app := ← app.orElse {} AppSettings.read?
      pagination := ← pagination.orElse {} PagingSettings.read?
      cache := ← cache.orElse {} CacheSettings.read?
      redis := ← redis.orElse {} RedisSettings.read?
      observability := ← observability.orElse {} ObservabilitySettings.read? }
  | _ => none

/-- The written form of a setting or a group of settings, by its names between dots. -/
def valueAt? (path : String) (s : Settings) : Option Value :=
  (segments path).foldl (fun v name => v.bind (Value.field? name)) (some s.toValue)

end Settings

instance : Written Settings := ⟨Settings.toValue, Settings.read?⟩
end Quire
