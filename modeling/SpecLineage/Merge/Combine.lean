import SpecLineage.Document.Basic

/-!
# 二つの値を重ねる

下の値 `base` に上の値 `above` を重ねる。書かれた値は上のものが勝ち、並びは下の後に上をつなぐ。AI への
手がかりの並びだけは、同じものを二度書かない。
-/

namespace SpecLineage

/-- 下の値に上の値を重ねる仕方。 -/
class Combine (α : Type) where
  combine (base above : α) : α

/-- 上の値があれば上の値、なければ下の値。 -/
def pick {α : Type} (base above : Option α) : Option α := above <|> base

/-- つないだ並びで、同じものは最初の一つだけを残す。 -/
def union {α : Type} [BEq α] (base above : List α) : List α := (base ++ above).eraseDups

instance : Combine Metadata where
  combine base above := {
    id := pick base.id above.id
    version := pick base.version above.version
    title := pick base.title above.title
    description := pick base.description above.description
    author := pick base.author above.author
    tags := base.tags ++ above.tags }

instance : Combine BusinessRule where
  combine base above := {
    id := base.id
    name := pick base.name above.name
    description := pick base.description above.description
    condition := pick base.condition above.condition
    action := pick base.action above.action
    priority := pick base.priority above.priority
    exceptions := base.exceptions ++ above.exceptions }

instance : Combine DataStructure where
  combine base above := {
    id := base.id
    name := pick base.name above.name
    description := pick base.description above.description
    fields := base.fields ++ above.fields
    constraints := base.constraints ++ above.constraints
    relationships := base.relationships ++ above.relationships
    indexes := base.indexes ++ above.indexes }

instance : Combine ApiEndpoint where
  combine base above := {
    id := base.id
    method := pick base.method above.method
    path := pick base.path above.path
    summary := pick base.summary above.summary
    description := pick base.description above.description
    requestSchema := pick base.requestSchema above.requestSchema
    responseSchema := pick base.responseSchema above.responseSchema
    auth := pick base.auth above.auth
    parameters := base.parameters ++ above.parameters }

instance : Combine WorkflowStep where
  combine base above := {
    id := base.id
    name := pick base.name above.name
    description := pick base.description above.description
    actor := pick base.actor above.actor
    action := pick base.action above.action
    dependsOn := base.dependsOn ++ above.dependsOn
    outputs := base.outputs ++ above.outputs }

instance : Combine AiContext where
  combine base above := {
    summary := pick base.summary above.summary
    modelHints := union base.modelHints above.modelHints
    constraints := union base.constraints above.constraints
    examples := union base.examples above.examples
    maxTokens := pick base.maxTokens above.maxTokens }

instance : Combine Governance where
  combine base above := {
    owner := pick base.owner above.owner
    status := pick base.status above.status
    dataClassification := pick base.dataClassification above.dataClassification
    reviewCycle := pick base.reviewCycle above.reviewCycle
    complianceFrameworks := base.complianceFrameworks ++ above.complianceFrameworks
    auditTrail := base.auditTrail ++ above.auditTrail }

/-- 節を重ねる。片方だけにあれば、それをそのまま取る。 -/
instance {α : Type} [Combine α] : Combine (Option α) where
  combine
    | some base, some above => some (Combine.combine base above)
    | some base, none => some base
    | none, above => above

end SpecLineage
