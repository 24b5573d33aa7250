import SpecLineage.Data.Layout

/-!
# 文書の節

文書に高々一つある節、AI への手がかりと統制を定める。
-/

namespace SpecLineage

/-- 文書を読む AI への手がかり。 -/
structure AiContext where
  summary : Option String := none
  modelHints : List String := []
  constraints : List String := []
  examples : List String := []
  maxTokens : Option UInt32 := none
  deriving DecidableEq

instance : Layout AiContext where
  shape := .record <|
    .maybe "summary" String <| .default "model_hints" (List String) <|
    .default "constraints" (List String) <| .default "examples" (List String) <|
    .maybe "max_tokens" UInt32 .nil
  toData c := .record
    [Slot.maybe c.summary, Slot.many c.modelHints, Slot.many c.constraints,
      Slot.many c.examples, Slot.maybe c.maxTokens]
  ofData?
    | .record [summary, modelHints, constraints, examples, maxTokens] => do
      return {
        summary := ← Slot.maybe? summary
        modelHints := ← Slot.many? modelHints
        constraints := ← Slot.many? constraints
        examples := ← Slot.many? examples
        maxTokens := ← Slot.maybe? maxTokens }
    | _ => none
  ofData?_toData _ := by simp

/-- 監査の記録の一件。 -/
structure AuditEntry where
  date : Option String := none
  author : Option String := none
  action : String
  note : Option String := none
  deriving DecidableEq

instance : Layout AuditEntry where
  shape := .record <|
    .maybe "date" String <| .maybe "author" String <| .one "action" String <|
    .maybe "note" String .nil
  toData e := .record
    [Slot.maybe e.date, Slot.maybe e.author, Slot.one e.action, Slot.maybe e.note]
  ofData?
    | .record [date, author, action, note] => do
      return {
        date := ← Slot.maybe? date
        author := ← Slot.maybe? author
        action := ← Slot.one? action
        note := ← Slot.maybe? note }
    | _ => none
  ofData?_toData _ := by simp

/-- 所有、見直し、準拠についての統制。 -/
structure Governance where
  owner : Option String := none
  status : Option String := none
  dataClassification : Option String := none
  reviewCycle : Option String := none
  complianceFrameworks : List String := []
  /-- 書き足すだけの記録。順に意味がある。 -/
  auditTrail : List AuditEntry := []
  deriving DecidableEq

instance : Layout Governance where
  shape := .record <|
    .maybe "owner" String <| .maybe "status" String <| .maybe "data_classification" String <|
    .maybe "review_cycle" String <| .default "compliance_frameworks" (List String) <|
    .default "audit_trail" (List AuditEntry) .nil
  toData g := .record
    [Slot.maybe g.owner, Slot.maybe g.status, Slot.maybe g.dataClassification,
      Slot.maybe g.reviewCycle, Slot.many g.complianceFrameworks, Slot.many g.auditTrail]
  ofData?
    | .record [owner, status, dataClassification, reviewCycle, frameworks, trail] => do
      return {
        owner := ← Slot.maybe? owner
        status := ← Slot.maybe? status
        dataClassification := ← Slot.maybe? dataClassification
        reviewCycle := ← Slot.maybe? reviewCycle
        complianceFrameworks := ← Slot.many? frameworks
        auditTrail := ← Slot.many? trail }
    | _ => none
  ofData?_toData _ := by simp

end SpecLineage
