import Quire.Settings.Basic
import Quire.Settings.Toml
/-!
# Layered settings

Settings come from several files and from environment variables, later ones over earlier ones; what
nobody sets has its default. The result must satisfy the conditions on settings.
-/
namespace Quire

/-! ## Settings from trees -/

namespace SettingTree

variable {α : Type}

/-- What a group holds for the settings with the given names: a table by name, a list by place. -/
def slots? (names : List String) : SettingTree → Option (List (Option SettingTree))
  | .table fs => some (names.map (fs.lookup ·))
  | .list ts => some ((List.range names.length).map (ts[·]?))
  | _ => none

/-- A setting, with its default where it is not set. -/
def setting (default : α) (read : SettingTree → Option α) : Option SettingTree → Option α
  | some t => read t
  | none => some default

/-- A single setting. -/
def single (read : Scalar → Option α) : SettingTree → Option α
  | .leaf s => read s
  | _ => none

def text? : SettingTree → Option String := single fun s => some s.toText

def bool? : SettingTree → Option Bool := single Scalar.toBool?

def nat64? : SettingTree → Option Nat := single Scalar.toNat64?

def nat32? : SettingTree → Option Nat := single Scalar.toNat32?

/-- One of several words, as a text or as the only name of a table. -/
def oneOf? (words : List (String × α)) : SettingTree → Option α
  | .leaf (.str s) => words.lookup (Scalar.lower s)
  | .table [(name, _)] => words.lookup (Scalar.lower name)
  | _ => none

end SettingTree

open SettingTree

def AppSettings.ofTree? (t : SettingTree) : Option AppSettings := do
  let d : AppSettings := {}
  match ← slots? ["name", "environment"] t with
  | [name, environment] =>
    some ⟨← setting d.name text? name, ← setting d.environment text? environment⟩
  | _ => none

def PagingSettings.ofTree? (t : SettingTree) : Option PagingSettings := do
  let d : PagingSettings := {}
  match ← slots? ["default_limit", "max_limit", "deep_page_threshold", "cursor_version",
      "id_field", "estimated_count_when_unfiltered"] t with
  | [defaultLimit, maxLimit, deepPageThreshold, cursorVersion, idField, estimatedCount] =>
    some {
      defaultLimit := ← setting d.defaultLimit nat64? defaultLimit
      maxLimit := ← setting d.maxLimit nat64? maxLimit
      deepPageThreshold := ← setting d.deepPageThreshold nat64? deepPageThreshold
      cursorVersion := ← setting d.cursorVersion nat32? cursorVersion
      idField := ← setting d.idField text? idField
      estimatedCount := ← setting d.estimatedCount bool? estimatedCount }
  | _ => none

def CacheSettings.ofTree? (t : SettingTree) : Option CacheSettings := do
  let d : CacheSettings := {}
  match ← slots? ["enabled", "backend", "key_prefix", "by_id_ttl_secs", "query_ttl_secs",
      "list_ttl_secs", "version_ttl_secs", "max_list_limit", "memory_max_entries"] t with
  | [enabled, backend, keyPrefix, byIdTtl, queryTtl, listTtl, versionTtl, maxListLimit,
      memoryMaxEntries] =>
    some {
      enabled := ← setting d.enabled bool? enabled
      backend := ← setting d.backend (oneOf? [("memory", .memory), ("redis", .redis)]) backend
      keyPrefix := ← setting d.keyPrefix text? keyPrefix
      byIdTtl := ← setting d.byIdTtl nat64? byIdTtl
      queryTtl := ← setting d.queryTtl nat64? queryTtl
      listTtl := ← setting d.listTtl nat64? listTtl
      versionTtl := ← setting d.versionTtl nat64? versionTtl
      maxListLimit := ← setting d.maxListLimit nat64? maxListLimit
      memoryMaxEntries := ← setting d.memoryMaxEntries nat64? memoryMaxEntries }
  | _ => none

def RedisSettings.ofTree? (t : SettingTree) : Option RedisSettings := do
  let d : RedisSettings := {}
  match ← slots? ["url", "pool_size"] t with
  | [url, poolSize] => some ⟨← setting d.url text? url, ← setting d.poolSize nat64? poolSize⟩
  | _ => none

def ObservabilitySettings.ofTree? (t : SettingTree) : Option ObservabilitySettings := do
  let d : ObservabilitySettings := {}
  match ← slots? ["log_level", "log_format", "metrics_enabled"] t with
  | [logLevel, logFormat, metricsEnabled] =>
    some {
      logLevel := ← setting d.logLevel text? logLevel
      logFormat := ← setting d.logFormat (oneOf? [("pretty", .pretty), ("json", .json)]) logFormat
      metricsEnabled := ← setting d.metricsEnabled bool? metricsEnabled }
  | _ => none

def Settings.ofTree? (t : SettingTree) : Option Settings := do
  match ← slots? ["app", "pagination", "cache", "redis", "observability"] t with
  | [app, pagination, cache, redis, observability] =>
    some {
      app := ← setting {} AppSettings.ofTree? app
      pagination := ← setting {} PagingSettings.ofTree? pagination
      cache := ← setting {} CacheSettings.ofTree? cache
      redis := ← setting {} RedisSettings.ofTree? redis
      observability := ← setting {} ObservabilitySettings.ofTree? observability }
  | _ => none

/-! ## Layers -/

/-- Where settings come from: files with their texts, and variables with theirs. -/
structure Sources where
  files : List (String × String) := []
  vars : List (String × String) := []

/-- Why settings cannot be loaded. -/
inductive LoadFault where
  /-- A file that cannot be read. -/
  | malformed (file : String)
  /-- A setting of a type that cannot be converted. -/
  | unfit
  /-- Settings that break a condition. -/
  | invalid (cause : Fault)

/-- Every failure to load is a fault of the configuration. -/
def LoadFault.toFault : LoadFault → Fault
  | .malformed file => .configuration s!"cannot read settings file '{file}'"
  | .unfit => .configuration "setting of the wrong type"
  | .invalid cause => cause

namespace Sources

/-- The variable that names the environment. -/
def environmentVariable : String := "FOLIO_ENVIRONMENT"

/-- What the names of variables with settings start with, in any case. -/
def variableStem : List Char := "folio__".toList

/-- The environment, which has a file of its own. -/
def environment (s : Sources) : String :=
  (s.vars.lookup environmentVariable).getD "development"

/-- The file that a path leads to from the folder of the settings, which holds no other folders.
Where nothing but the ending is left of its name, it is no file of settings. -/
def fileOfPath? (path : String) : Option String :=
  match ((Text.pieces (· == '/') path.toList).map String.ofList).reverse with
  | name :: folders =>
    if (folders.all fun f => f = "" || f = ".") && name ≠ ".toml" then some name else none
  | [] => none

/-- The names of the files, later ones over earlier ones. The name of the environment is a path. -/
def fileNames (s : Sources) : List String :=
  ["default", s.environment, "local"].filterMap fun name => fileOfPath? (name ++ ".toml")

/-- The settings of a file; a file that does not exist has none. -/
def fileLayer (s : Sources) (name : String) : Except LoadFault Layer :=
  match s.files.lookup name with
  | none => .ok []
  | some text =>
    match Toml.read? text with
    | some layer => .ok layer
    | none => .error (.malformed name)

/-- What follows a stem. -/
def afterStem? : List Char → List Char → Option (List Char)
  | [], cs => some cs
  | s :: stem, c :: cs => if s = c then afterStem? stem cs else none
  | _ :: _, [] => none

/-- Writes a dot for every two underscores. -/
def dotted : List Char → List Char
  | '_' :: '_' :: cs => '.' :: dotted cs
  | c :: cs => c :: dotted cs
  | [] => []

/-- The path of the setting that a variable holds. -/
def variablePath? (name : String) : Option String :=
  (afterStem? variableStem (Scalar.lower name).toList).map fun cs => String.ofList (dotted cs)

/-- The settings of the variables. -/
def variableLayer (s : Sources) : Layer :=
  s.vars.filterMap fun (name, text) =>
    (variablePath? name).map fun path => (path, .leaf (.ofText text))

/-- All settings, laid over one another. -/
def tree (s : Sources) : Except LoadFault SettingTree := do
  let layers ← s.fileNames.mapM s.fileLayer
  return (layers ++ [s.variableLayer]).foldl (fun base layer => overlay layer base) (.table [])

/-- The settings that the sources give. -/
def load (s : Sources) : Except LoadFault Settings := do
  match Settings.ofTree? (← s.tree) with
  | none => .error .unfit
  | some settings =>
    match settings.validate with
    | .ok _ => .ok settings
    | .error cause => .error (.invalid cause)

end Sources
end Quire
