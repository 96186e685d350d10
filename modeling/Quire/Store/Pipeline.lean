import Quire.Store.Group
/-!
# Running pipelines
-/
namespace Quire.Stage

mutual
/-- The documents after a stage. -/
def run (idField : String) : Stage → List Document → List Document
  | .filter f, docs => docs.filter fun d => f.holds d
  | .sort s, docs => s.sort docs
  | .skip n, docs => docs.drop n
  | .limit n, docs => docs.take n
  | .project p, docs => docs.map (p.apply idField)
  | .group field accumulators, docs => groupRows field accumulators docs
  | .count name, docs => if docs.isEmpty then [] else [[(name, .nat docs.length)]]
  | .facet branches, docs => [runBranches idField branches docs []]

/-- The documents after several stages. -/
def runAll (idField : String) : List Stage → List Document → List Document
  | [], docs => docs
  | s :: rest, docs => runAll idField rest (run idField s docs)

/-- The results of named pipelines over the same documents, each under its name. -/
def runBranches (idField : String) :
    List (String × List Stage) → List Document → Document → Document
  | [], _, out => out
  | (name, stages) :: rest, docs, out =>
    runBranches idField rest docs (out.set name (.documents (runAll idField stages docs)))
end

mutual
/-- Whether the sorts in a stage are certain to go through. -/
def canRun (idField : String) : Stage → List Document → Bool
  | .sort s, docs => s.canSort docs
  | .facet branches, docs => canRunBranches idField branches docs
  | _, _ => true

/-- Whether the sorts in several stages are certain to go through. -/
def canRunAll (idField : String) : List Stage → List Document → Bool
  | [], _ => true
  | s :: rest, docs => canRun idField s docs && canRunAll idField rest (run idField s docs)

/-- Whether the sorts in named pipelines over the same documents are certain to go through. -/
def canRunBranches (idField : String) : List (String × List Stage) → List Document → Bool
  | [], _ => true
  | (_, stages) :: rest, docs =>
    canRunAll idField stages docs && canRunBranches idField rest docs
end

end Quire.Stage
