import Quire.Hook
import Quire.Wire.Page
import Quire.Wire.Request
/-!
# Written forms of operations, served results and events
-/
namespace Quire

open Wire

namespace Operation

def words : List (String × Operation) := all.map fun o => (o.name, o)

def toValue (o : Operation) : Value := .str o.name

def read? (v : Value) : Option Operation := word? words .strict v

end Operation

instance : Written Operation := ⟨Operation.toValue, Operation.read?⟩

namespace HookResult

def toValue : HookResult → Value
  | .document d => .obj [("kind", .str "document"), ("value", .obj d)]
  | .list r => .obj [("kind", .str "list"), ("value", r.toValue)]

/-- The readers of the content, by kind. -/
def words : List (String × (Value → Option HookResult)) :=
  [("document", fun v => v.document?.map .document),
    ("list", fun v => (ListResult.read? v).map .list)]

def read? (v : Value) : Option HookResult := do
  let (read, content) ← tagged? "kind" "value" words v
  content.required read

end HookResult

instance : Written HookResult := ⟨HookResult.toValue, HookResult.read?⟩

/-- What hooks can see of the context. -/
def HookContext.toFields (c : HookContext) : List (String × Value) :=
  [written "served" c.servedFromCache, written "skip_cache" c.skipCache,
    written "cache_key" c.cacheKey]

/-! ## Events -/

/-- What an operation is about to do. -/
def BeforeEvent.toValue : BeforeEvent → Value
  | .getById id options => .obj [written "id" id, written "options" options]
  | .getByQuery filter options => .obj [written "filter" filter, written "options" options]
  | .getAll request =>
    .obj [written "mode" request.mode, written "skip_cache" request.skipCache]
  | .create doc => .obj [written "doc" doc]
  | .createMany docs => .obj [written "docs" docs]
  | .update id patch => .obj [written "id" id, written "patch" patch]
  | .updateMany filter patch => .obj [written "filter" filter, written "patch" patch]
  | .delete id => .obj [written "id" id]
  | .deleteMany filter => .obj [written "filter" filter]

/-- What an operation has done. -/
def AfterEvent.toValue : AfterEvent → Value
  | .getById id _ result => .obj [written "id" id, written "result" result]
  | .getByQuery filter _ result => .obj [written "filter" filter, written "result" result]
  | .getAll _ result => .obj [written "result" result]
  | .create doc => .obj [written "doc" doc]
  | .createMany docs => .obj [written "docs" docs]
  | .update id result => .obj [written "id" id, written "result" result]
  | .updateMany _ modified => .obj [written "modified" modified]
  | .delete id deleted => .obj [written "id" id, written "deleted" deleted]
  | .deleteMany _ deleted => .obj [written "deleted" deleted]

end Quire
