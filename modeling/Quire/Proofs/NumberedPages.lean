import Mathlib.Algebra.Order.Floor.Div
import Quire.Proofs.Streams

/-!
# Numbered pages

A page by number is cut out of a list: as many documents as fit, after those of the pages before,
with the length of the list as its total. A list read cuts what the store finds without a limit, an
aggregation cuts the results of its pipeline. The pages of a list in order make up the list, and
beyond them there are only empty ones. Where the list cannot be sorted, neither can its pages.
-/
namespace Quire

variable {α : Type}

/-! ## Cutting a list -/

namespace PagingSettings

variable (s : PagingSettings)

/-- The page of a list that a request by number gets. -/
def cut (rows : List Document) (page limit : Option Nat) : OffsetPage :=
  .build ((rows.drop ((clampPage page - 1) * s.clampLimit limit)).take (s.clampLimit limit))
    (clampPage page) (s.clampLimit limit) rows.length (s.deepPageWarning? (clampPage page))

/-- The largest skip lies beyond every list that a store can hold. -/
theorem drop_skipOf {rows : List α} (h : rows.length < twoPow 64) (page limit : Nat) :
    rows.drop (skipOf page limit) = rows.drop ((page - 1) * limit) := by
  rw [skipOf]
  rcases Nat.le_total ((page - 1) * limit) skipLimit with hle | hle
  · rw [Nat.min_eq_left hle]
  · have hlimit : rows.length ≤ skipLimit := Nat.le_sub_one_of_lt h
    rw [Nat.min_eq_right hle, List.drop_of_length_le hlimit,
      List.drop_of_length_le (hlimit.trans hle)]

end PagingSettings

/-! ## Finds without a limit -/

namespace Collection

variable (c : Collection)

/-- A find takes its documents out of what it finds without skip and limit, also where it
projects them. -/
theorem select_eq_take_drop (q : FindQuery) {limit : Nat} (hlimit : q.limit = some limit) :
    c.select q = ((c.select { q with skip := 0, limit := none }).drop q.skip).take limit := by
  cases hprojection : q.projection with
  | none => simp only [select, hlimit, hprojection, List.drop_zero]
  | some p => simp only [select, hlimit, hprojection, List.drop_zero, List.map_take, List.map_drop]

/-- Without skip and limit, every matching document is found once. -/
theorem length_select (f : Filter) (sort : SortOrder) (projection : Option Projection) :
    (c.select { filter := f, sort, projection }).length = c.count f := by
  have hsort := (sort.sort_perm (c.docs.filter fun d => f.holds d)).length_eq
  cases projection with
  | none => simpa only [select, List.drop_zero, count] using hsort
  | some p => simpa only [select, List.drop_zero, List.length_map, count] using hsort

theorem count_le (f : Filter) : c.count f ≤ c.docs.length := List.length_filter_le _ _

/-- Where a filter is visibly without condition, the estimate is exact. -/
theorem count_of_isEmpty {f : Filter} (h : f.isEmpty = true) : c.count f = c.docs.length := by
  rw [count, List.filter_eq_self.mpr fun d _ => f.holds_of_isEmpty d h]

end Collection

/-! ## Pipelines -/

/-- The stages that find what a request asks for. -/
def FindQuery.stages (q : FindQuery) : List Stage :=
  [.filter q.filter, .sort q.sort, .skip q.skip] ++ (q.limit.map Stage.limit).toList ++
    (q.projection.map Stage.project).toList

theorem Collection.aggregate_stages (c : Collection) (q : FindQuery) :
    c.aggregate q.stages = c.select q := by
  cases hlimit : q.limit <;> cases hprojection : q.projection <;>
    simp [FindQuery.stages, Collection.aggregate, Collection.select, Stage.runAll, Stage.run,
      hlimit, hprojection]

theorem Collection.canRunAll_stages (c : Collection) (q : FindQuery) :
    Stage.canRunAll c.idField q.stages c.docs = c.canSort q.filter q.sort := by
  cases hlimit : q.limit <;> cases hprojection : q.projection <;>
    simp [FindQuery.stages, Collection.canSort, Stage.canRunAll, Stage.canRun, Stage.run,
      hlimit, hprojection]

theorem Collection.results_stages (c : Collection) (q : FindQuery) :
    c.results q.stages = c.find q := by
  rw [results, find, canRunAll_stages, aggregate_stages]

theorem Stage.runAll_append (idField : String) (first second : List Stage)
    (docs : List Document) :
    Stage.runAll idField (first ++ second) docs =
      Stage.runAll idField second (Stage.runAll idField first docs) := by
  induction first generalizing docs with
  | nil => rfl
  | cons stage first ih => exact ih _

theorem Stage.canRunAll_append (idField : String) (first second : List Stage)
    (docs : List Document) :
    Stage.canRunAll idField (first ++ second) docs =
      (Stage.canRunAll idField first docs &&
        Stage.canRunAll idField second (Stage.runAll idField first docs)) := by
  induction first generalizing docs with
  | nil => rfl
  | cons stage first ih =>
    rw [List.cons_append, canRunAll, canRunAll, runAll, ih, Bool.and_assoc]

namespace PagingSettings

/-- Documents under the first branch are read back as they were. -/
theorem facetDocs_documents {row : Document} {docs : List Document}
    (h : row.get? "docs" = some (.documents docs)) : facetDocs row = .ok docs := by
  have hdocs : ∀ ds : List Document, (ds.map Value.obj).mapM Value.document? = some ds :=
    fun ds => Value.mapM_map_eq_some fun d _ => rfl
  rw [facetDocs, h]
  simp only [Value.documents, hdocs]

/-- The number under the second branch is read back as it was, unless it is too large. -/
theorem facetTotal_count {row : Document} {rows : List Document} (hfits : rows.length < twoPow 64)
    {idField : String}
    (h : row.get? "total" = some (.documents (Stage.run idField (.count "count") rows))) :
    facetTotal row = rows.length := by
  cases rows with
  | nil => rw [facetTotal, h]; rfl
  | cons d rows =>
    generalize hn : (d :: rows).length = n at hfits
    have hrow : Value.documents (Stage.run idField (.count "count") (d :: rows)) =
        .arr [.obj [("count", .nat n)]] := by
      rw [Stage.run, hn]
      rfl
    have hfield : (Value.obj [("count", .nat n)]).field? "count" = some (.nat n) := rfl
    rw [facetTotal, h, hrow]
    show (((Value.obj [("count", .nat n)]).field? "count").bind Value.unsigned64?).getD 0 = n
    rw [hfield, Option.bind_some, Value.unsigned64?_nat hfits, Option.getD_some]

end PagingSettings

/-- The branches at the end of a pipeline give one document with a page and the number of all. -/
theorem Collection.exists_pageFacet (c : Collection) {stages : List Stage}
    (hfits : (c.aggregate stages).length < twoPow 64) (skip limit : Nat) :
    ∃ row, c.aggregate (stages ++ [PagingSettings.pageFacet skip limit]) = [row] ∧
      PagingSettings.facetDocs row = .ok (((c.aggregate stages).drop skip).take limit) ∧
      PagingSettings.facetTotal row = (c.aggregate stages).length := by
  refine ⟨[("docs", .documents (((c.aggregate stages).drop skip).take limit)),
    ("total", .documents (Stage.run c.idField (.count "count") (c.aggregate stages)))], ?_,
    PagingSettings.facetDocs_documents rfl, PagingSettings.facetTotal_count hfits rfl⟩
  rw [aggregate, Stage.runAll_append]
  rfl

theorem Collection.results_pageFacet (c : Collection) (stages : List Stage) (skip limit : Nat) :
    c.results (stages ++ [PagingSettings.pageFacet skip limit]) =
      (c.results stages).map fun _ =>
        c.aggregate (stages ++ [PagingSettings.pageFacet skip limit]) := by
  have hfacet : ∀ docs, Stage.canRunAll c.idField [PagingSettings.pageFacet skip limit] docs =
      true := fun _ => rfl
  rw [results, results, Stage.canRunAll_append, hfacet, Bool.and_true]
  split <;> rfl

/-! ## Requests -/

namespace Pager

variable {σ : Type} (part : Part σ Collection) {settings : PagingSettings}

/-- A request by number cuts its page out of what a find without skip and limit returns. -/
theorem runOn_paginate {r : OffsetRequest} {sort : SortOrder}
    (hsort : settings.offsetSort r.sort = .ok sort) {s : σ}
    (hfits : (part.get s).docs.length < twoPow 64) :
    ((Pager.mk (Collection.reader part) settings).paginate r).runOn s =
      (((part.get s).find { filter := r.filter, sort, projection := r.projection }).map
        fun rows => settings.cut rows r.page r.limit, s) := by
  have hrows := (part.get s).length_select r.filter sort r.projection
  have hfew : ((part.get s).select {
      filter := r.filter, sort, projection := r.projection }).length < twoPow 64 := by
    rw [hrows]
    exact ((part.get s).count_le _).trans_lt hfits
  have hskip := PagingSettings.drop_skipOf hfew (PagingSettings.clampPage r.page)
    (settings.clampLimit r.limit)
  have hpage : ∀ total, (part.get s).count r.filter = total →
      OffsetPage.build (((part.get s).select {
          filter := r.filter, sort
          skip := PagingSettings.skipOf (PagingSettings.clampPage r.page)
            (settings.clampLimit r.limit)
          limit := some (settings.clampLimit r.limit)
          projection := r.projection, populate := r.populate }).take (settings.clampLimit r.limit))
        (PagingSettings.clampPage r.page) (settings.clampLimit r.limit) total
        (settings.deepPageWarning? (PagingSettings.clampPage r.page)) =
      settings.cut ((part.get s).select { filter := r.filter, sort, projection := r.projection })
        r.page r.limit := by
    rintro total rfl
    rw [(part.get s).select_eq_take_drop _ rfl, List.take_take, Nat.min_self, PagingSettings.cut,
      hrows, ← hskip]
    rfl
  rw [paginate]
  simp only [Action.runOn_bind, Action.runOn_ofExcept, hsort, Collection.reader, Action.ofRead,
    Action.runOn_ofFun]
  -- Whether the documents can be sorted does not depend on how many of them are asked for.
  by_cases hcan : (part.get s).canSort r.filter sort = true
  · simp only [Collection.find, hcan, if_true]
    show Action.runOn (if _ then _ else _) s = _
    split
    · next hempty =>
      have htotal := (part.get s).count_of_isEmpty (Bool.and_eq_true_iff.mp hempty).1
      exact Prod.ext (congrArg Except.ok (hpage _ htotal)) rfl
    · exact Prod.ext (congrArg Except.ok (hpage _ rfl)) rfl
  · simp only [Collection.find, hcan]
    rfl

/-- A page of a pipeline's results is cut out of them. -/
theorem runOn_aggregatePaginate (r : AggregateRequest) {s : σ}
    (hfits : ((part.get s).aggregate r.pipeline).length < twoPow 64) :
    ((Pager.mk (Collection.reader part) settings).aggregatePaginate r).runOn s =
      (((part.get s).results r.pipeline).map fun rows => settings.cut rows r.page r.limit, s) := by
  obtain ⟨row, hrow, hdocs, htotal⟩ := (part.get s).exists_pageFacet hfits
    (PagingSettings.skipOf (PagingSettings.clampPage r.page) (settings.clampLimit r.limit))
    (settings.clampLimit r.limit)
  have hskip := PagingSettings.drop_skipOf hfits (PagingSettings.clampPage r.page)
    (settings.clampLimit r.limit)
  rw [aggregatePaginate]
  simp only [Action.runOn_bind, Collection.reader, Action.ofRead, Action.runOn_ofFun,
    Collection.results_pageFacet, hrow]
  cases hresults : (part.get s).results r.pipeline with
  | error f => rfl
  | ok rows =>
    have hrows := Collection.eq_aggregate_of_results hresults
    subst hrows
    simp only [Except.map, List.head?_cons, Option.getD_some, Action.runOn_ofExcept, hdocs,
      htotal, Action.runOn_pure, List.take_take, Nat.min_self, hskip]
    rfl

/-- Numbered pages of two documents, the largest first, with an estimated total. -/
def twoPerPage : OffsetRequest where
  sort := some ⟨[⟨"n", .desc⟩]⟩
  limit := some 2
  estimatedCount := true

theorem offsetSort_twoPerPage :
    pagerOfRows.settings.offsetSort twoPerPage.sort = .ok ⟨[⟨"n", .desc⟩, ⟨"id", .desc⟩]⟩ := rfl

/-- A list read by number ends as the page of the pipeline that filters, sorts and projects does,
and every find as its stages. There is a page wherever the documents can be sorted. -/
theorem paginate_eq_aggregatePaginate {r : OffsetRequest} {sort : SortOrder}
    (hsort : settings.offsetSort r.sort = .ok sort) {s : σ}
    (hfits : (part.get s).docs.length < twoPow 64) :
    ((Pager.mk (Collection.reader part) settings).paginate r).runOn s =
      ((Pager.mk (Collection.reader part) settings).aggregatePaginate {
        pipeline := [.filter r.filter, .sort sort] ++ (r.projection.map Stage.project).toList
        page := r.page, limit := r.limit }).runOn s ∧
    ((∃ page, ((Pager.mk (Collection.reader part) settings).paginate r).runOn s = (.ok page, s)) ↔
      (part.get s).count r.filter ≤ SortOrder.insertionLimit ∨
        sort.TotalOn ((part.get s).docs.filter fun d => r.filter.holds d)) ∧
    ∀ q : FindQuery, ((Collection.reader part).find q).runOn s =
      ((Collection.reader part).aggregate q.stages).runOn s := by
  have hrows : (part.get s).aggregate
      ([.filter r.filter, .sort sort] ++ (r.projection.map Stage.project).toList) =
        (part.get s).select { filter := r.filter, sort, projection := r.projection } := by
    cases hprojection : r.projection <;>
      simp [Collection.aggregate, Collection.select, Stage.runAll, Stage.run]
  have hresults : (part.get s).results
      ([.filter r.filter, .sort sort] ++ (r.projection.map Stage.project).toList) =
        (part.get s).find { filter := r.filter, sort, projection := r.projection } := by
    have hcan : Stage.canRunAll (part.get s).idField
        ([.filter r.filter, .sort sort] ++ (r.projection.map Stage.project).toList)
          (part.get s).docs = (part.get s).canSort r.filter sort := by
      cases hprojection : r.projection <;>
        simp [Collection.canSort, Stage.canRunAll, Stage.canRun, Stage.run]
    rw [Collection.results, hrows, hcan, Collection.find]
  have hfits' : ((part.get s).aggregate ([.filter r.filter, .sort sort] ++
      (r.projection.map Stage.project).toList)).length < twoPow 64 := by
    rw [hrows, Collection.length_select]
    exact ((part.get s).count_le _).trans_lt hfits
  refine ⟨?_, ?_, fun q => ?_⟩
  · rw [runOn_paginate part hsort hfits, runOn_aggregatePaginate part _ hfits', hresults]
  · rw [runOn_paginate part hsort hfits]
    refine Iff.trans ?_ (Collection.find_isOk_iff
      { filter := r.filter, sort, projection := r.projection })
    cases (part.get s).find { filter := r.filter, sort, projection := r.projection } with
    | error f => simp [Except.map]
    | ok rows => simp [Except.map]
  · show ((part.get s).find q, s) = ((part.get s).results q.stages, s)
    rw [Collection.results_stages]

/-- The first of two pages, with a field that only two of the documents have. -/
theorem paginate_eq_aggregatePaginate_threeRows :
    ∃ page,
      (pagerOfRows.paginate { twoPerPage with projection := some ⟨["n"]⟩ }).runOn threeRows =
        (.ok page, threeRows) ∧
      (pagerOfRows.aggregatePaginate {
        pipeline := [.filter .all, .sort ⟨[⟨"n", .desc⟩, ⟨"id", .desc⟩]⟩, .project ⟨["n"]⟩]
        limit := some 2 }).runOn threeRows = (.ok page, threeRows) := by
  obtain ⟨hsame, hpage, -⟩ := paginate_eq_aggregatePaginate Part.whole
    (r := { twoPerPage with projection := some ⟨["n"]⟩ }) (s := threeRows) offsetSort_twoPerPage
    (by decide)
  obtain ⟨page, hpage⟩ := hpage.mpr (Or.inl (by decide))
  exact ⟨page, hpage, hsame ▸ hpage⟩

end Pager
end Quire
