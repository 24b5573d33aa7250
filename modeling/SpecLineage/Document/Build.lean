import SpecLineage.Document.Basic

/-!
# 文書を組み立てる

空の値に項目を一つずつ加えて、文書とその部分を組み立てる。並びには末尾に加え、節は後のものが残る。
-/

namespace SpecLineage

namespace BusinessRule

def ofId (id : String) : BusinessRule := { id }

def named (r : BusinessRule) (name : String) : BusinessRule := { r with name }

def onCondition (r : BusinessRule) (condition : String) : BusinessRule := { r with condition }

def withAction (r : BusinessRule) (action : String) : BusinessRule := { r with action }

def addException (r : BusinessRule) (exception : String) : BusinessRule :=
  { r with exceptions := r.exceptions ++ [exception] }

end BusinessRule

namespace DataStructure

def ofId (id : String) : DataStructure := { id }

def addField (s : DataStructure) (name type : String) : DataStructure :=
  { s with fields := s.fields ++ [{ name, type }] }

def addConstraint (s : DataStructure) (constraint : String) : DataStructure :=
  { s with constraints := s.constraints ++ [constraint] }

end DataStructure

namespace ApiEndpoint

def ofId (id : String) : ApiEndpoint := { id }

def withRoute (e : ApiEndpoint) (method path : String) : ApiEndpoint := { e with method, path }

def withSummary (e : ApiEndpoint) (summary : String) : ApiEndpoint := { e with summary }

end ApiEndpoint

namespace WorkflowStep

def ofId (id : String) : WorkflowStep := { id }

def named (s : WorkflowStep) (name : String) : WorkflowStep := { s with name }

def withActor (s : WorkflowStep) (actor : String) : WorkflowStep := { s with actor }

def addDependency (s : WorkflowStep) (target : String) : WorkflowStep :=
  { s with dependsOn := s.dependsOn ++ [target] }

end WorkflowStep

namespace AiContext

def addHint (c : AiContext) (hint : String) : AiContext :=
  { c with modelHints := c.modelHints ++ [hint] }

def addConstraint (c : AiContext) (constraint : String) : AiContext :=
  { c with constraints := c.constraints ++ [constraint] }

end AiContext

namespace Governance

def withOwner (g : Governance) (owner : String) : Governance := { g with owner }

def addFramework (g : Governance) (framework : String) : Governance :=
  { g with complianceFrameworks := g.complianceFrameworks ++ [framework] }

/-- 監査の記録に、行いだけの一件を書き足す。 -/
def addAudit (g : Governance) (action : String) : Governance :=
  { g with auditTrail := g.auditTrail ++ [{ action }] }

end Governance

namespace Document

def ofId (id : String) : Document := { metadata := { id } }

def addParent (d : Document) (reference : String) : Document :=
  { d with parents := d.parents ++ [reference] }

def addRule (d : Document) (r : BusinessRule) : Document :=
  { d with businessRules := d.businessRules ++ [r] }

def addStructure (d : Document) (s : DataStructure) : Document :=
  { d with dataStructures := d.dataStructures ++ [s] }

def addEndpoint (d : Document) (e : ApiEndpoint) : Document :=
  { d with apiEndpoints := d.apiEndpoints ++ [e] }

def addStep (d : Document) (s : WorkflowStep) : Document :=
  { d with workflowSteps := d.workflowSteps ++ [s] }

def withAiContext (d : Document) (c : AiContext) : Document := { d with aiContext := c }

def withGovernance (d : Document) (g : Governance) : Document := { d with governance := g }

end Document

end SpecLineage
