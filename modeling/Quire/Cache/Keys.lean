import Quire.Document.Id
import Quire.Fault
import Quire.Json.Printer
import Quire.Text.Utf8
import Quire.Token.Sha256
import Quire.Wire.Request
/-!
# Cache keys

The keys of one collection. The parts of a key that the application chooses hold no character with
a meaning in patterns, and the name of a collection holds no colon, so that no pattern of one
collection reaches the keys of another.
-/
namespace Quire

/-- A short name of a value. The order of fields does not matter. -/
def fingerprint (v : Value) : String :=
  String.ofList (Sha256.hex ((Sha256.digest (Text.utf8 v.normalize.chars)).take 16))

/-- The characters with a meaning in patterns. -/
def isGlobChar (c : Char) : Bool := ['*', '?', '[', ']', '\\'].contains c

/-- Whether a name can start all keys of an application. -/
def isPlainNamespace (name : List Char) : Bool := name.all (!isGlobChar ·)

/-- Whether a name can stand for a collection in keys. -/
def isPlainCollection (name : List Char) : Bool :=
  !name.isEmpty && name.all fun c => !isGlobChar c && c != ':'

/-- The key space of one collection. -/
structure CacheKeys where
  keyPrefix : String
  collection : String
  plain_keyPrefix : isPlainNamespace keyPrefix.toList = true
  plain_collection : isPlainCollection collection.toList = true

namespace CacheKeys

/-- The key space of a collection, if both names are plain. -/
def make (keyPrefix collection : String) : Except Fault CacheKeys :=
  if hp : isPlainNamespace keyPrefix.toList = true then
    if hc : isPlainCollection collection.toList = true then .ok ⟨keyPrefix, collection, hp, hc⟩
    else .error (.validation s!"collection name '{collection}' cannot be used in cache keys")
  else .error (.configuration s!"cache key prefix '{keyPrefix}' contains glob characters")

/-- What all keys of the collection start with. -/
def stem (k : CacheKeys) : String := k.keyPrefix ++ ":" ++ k.collection ++ ":"

/-- The key of a single document. -/
def byId (k : CacheKeys) (id : DocumentId) : String := k.stem ++ "id:" ++ id.display

/-- What identifies the read of one document by filter. -/
def queryValue (f : Filter) (o : ReadOptions) : Value :=
  .obj [("filter", f.toValue), ("projection", .ofOption Projection.toValue o.projection),
    ("populate", .arr (o.populate.map .str))]

/-- The key of the read of one document by filter. -/
def byQuery (k : CacheKeys) (f : Filter) (o : ReadOptions) : String :=
  k.stem ++ "query:" ++ fingerprint (queryValue f o)

/-- The key of a list read under a version of the collection. -/
def list (k : CacheKeys) (version : Nat) (mode : ListMode) : String :=
  k.stem ++ "list:v" ++ toString version ++ ":" ++ fingerprint mode.toValue

/-- The key of the version itself. -/
def version (k : CacheKeys) : String := k.stem ++ "version"

/-- The pattern of all keys of the collection. -/
def pattern (k : CacheKeys) : String := k.stem ++ "*"

end CacheKeys
end Quire
