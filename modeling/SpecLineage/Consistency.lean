import SpecLineage.Document.Basic
import SpecLineage.Diagnostic

/-!
# 整合の検査

重ねた文書に生じうる不整合、つまり識別子の重複、動詞と経路の組の重複、文書にない段への依存を、誤りとして
挙げる。検査は互いによらず、どれも必ず行う。依存の循環は調べない。
-/

namespace SpecLineage

/-! ## 識別子の重複 -/

/-- 識別子が先に現れている実体。`seen` は先に現れた識別子である。 -/
def repeated {α : Type} [Entity α] (seen : List String) : List α → List α
  | [] => []
  | e :: es =>
    if Entity.id e ∈ seen then e :: repeated seen es else repeated (Entity.id e :: seen) es

/-- 識別子が先に現れている実体ごとの誤り。 -/
def duplicateIds {α : Type} [Entity α] (es : List α) : List Diagnostic :=
  (repeated [] es).map fun e =>
    .error (.duplicateId (Entity.kind α))
      s!"duplicate {(Entity.kind α).display} id '{Entity.id e}' in resolved document"

/-! ## 動詞と経路の重複 -/

/-- 動詞と経路の組が先に現れている口と、その組を最初に持った口の識別子。 -/
def repeatedRoutes (seen : List ((String × String) × String)) :
    List ApiEndpoint → List (String × ApiEndpoint × String × String)
  | [] => []
  | e :: es =>
    match e.route? with
    | none => repeatedRoutes seen es
    | some route =>
      match seen.lookup route with
      | some first => (first, e, route) :: repeatedRoutes seen es
      | none => repeatedRoutes ((route, e.id) :: seen) es

def duplicateRoutes (es : List ApiEndpoint) : List Diagnostic :=
  (repeatedRoutes [] es).map fun (first, e, method, path) =>
    .error .duplicateEndpoint s!"endpoints '{first}' and '{e.id}' both declare {method} {path}"

/-! ## 行き先のない依存 -/

/-- 段と、その段が先に終えるべきものとの組。 -/
def dependencies (steps : List WorkflowStep) : List (String × String) :=
  steps.flatMap fun step => step.dependsOn.map fun target => (step.id, target)

/-- 文書にない段への依存。同じ組は一度だけ挙げる。 -/
def missingDependencies (steps : List WorkflowStep) : List Diagnostic :=
  let known := steps.map WorkflowStep.id
  ((dependencies steps).filter fun d => !known.contains d.2).eraseDups.map fun (step, target) =>
    .error .missingDependency
      s!"workflow step '{step}' depends on '{target}', which is not defined in the resolved document"

/-- 文書の不整合をすべて挙げる。 -/
def Document.check (d : Document) : List Diagnostic :=
  duplicateIds d.businessRules ++ duplicateIds d.dataStructures ++ duplicateIds d.apiEndpoints ++
    duplicateIds d.workflowSteps ++ duplicateRoutes d.apiEndpoints ++
    missingDependencies d.workflowSteps

end SpecLineage
