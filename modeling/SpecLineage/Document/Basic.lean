import SpecLineage.Document.Metadata
import SpecLineage.Document.Entity
import SpecLineage.Document.Section

/-!
# 文書

文書は見出し、親への参照、実体の四つの並び、二つの節からなる。見出しはいつも書き出し、空の並びと
欠けた節は書き出さない。
-/

namespace SpecLineage

/-- 仕様の文書。 -/
structure Document where
  metadata : Metadata := {}
  /-- 親への参照。この文書の場所から解く。 -/
  parents : List String := []
  imports : List String := []
  exports : List String := []
  businessRules : List BusinessRule := []
  dataStructures : List DataStructure := []
  apiEndpoints : List ApiEndpoint := []
  workflowSteps : List WorkflowStep := []
  aiContext : Option AiContext := none
  governance : Option Governance := none
  deriving DecidableEq

instance : Layout Document where
  shape := .record <|
    .default "metadata" Metadata <| .default "extends" (List String) <|
    .default "imports" (List String) <| .default "exports" (List String) <|
    .default "business_rules" (List BusinessRule) <|
    .default "data_structures" (List DataStructure) <|
    .default "api_endpoints" (List ApiEndpoint) <|
    .default "workflow_steps" (List WorkflowStep) <|
    .maybe "ai_context" AiContext <| .maybe "governance" Governance .nil
  toData d := .record
    [Slot.one d.metadata, Slot.many d.parents, Slot.many d.imports, Slot.many d.exports,
      Slot.many d.businessRules, Slot.many d.dataStructures, Slot.many d.apiEndpoints,
      Slot.many d.workflowSteps, Slot.maybe d.aiContext, Slot.maybe d.governance]
  ofData?
    | .record [metadata, parents, imports, exports, rules, structures, endpoints, steps,
        aiContext, governance] => do
      return {
        metadata := (← Slot.maybe? metadata).getD {}
        parents := ← Slot.many? parents
        imports := ← Slot.many? imports
        exports := ← Slot.many? exports
        businessRules := ← Slot.many? rules
        dataStructures := ← Slot.many? structures
        apiEndpoints := ← Slot.many? endpoints
        workflowSteps := ← Slot.many? steps
        aiContext := ← Slot.maybe? aiContext
        governance := ← Slot.maybe? governance }
    | _ => none
  ofData?_toData d := by simp

namespace Document

/-- 親を持つか。 -/
def hasParents (d : Document) : Bool := !d.parents.isEmpty

/-- 実体の総数。 -/
def entityCount (d : Document) : Nat :=
  d.businessRules.length + d.dataStructures.length + d.apiEndpoints.length + d.workflowSteps.length

/-- 親への参照を消した文書。 -/
def withoutParents (d : Document) : Document := { d with parents := [] }

/-! ## 識別子で引く -/

/-- 並びの中で、その識別子を持つ最初の実体。 -/
def find? {α : Type} [Entity α] (es : List α) (id : String) : Option α :=
  es.find? (fun e => Entity.id e == id)

def businessRule? (d : Document) (id : String) : Option BusinessRule := find? d.businessRules id

def dataStructure? (d : Document) (id : String) : Option DataStructure := find? d.dataStructures id

def apiEndpoint? (d : Document) (id : String) : Option ApiEndpoint := find? d.apiEndpoints id

def workflowStep? (d : Document) (id : String) : Option WorkflowStep := find? d.workflowSteps id

end Document

end SpecLineage
