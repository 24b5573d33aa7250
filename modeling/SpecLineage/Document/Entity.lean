import SpecLineage.Data.Layout

/-!
# 文書の実体

文書は、業務規則、データ構造、API の口、作業手順の四つの並びを持つ。並びの要素は識別子 `id` を持ち、
`id` は並びの中で要素を指す。
-/

namespace SpecLineage

/-! ## 実体の種類 -/

/-- 実体の種類。 -/
inductive EntityKind where
  | businessRule
  | dataStructure
  | apiEndpoint
  | workflowStep
  deriving DecidableEq

namespace EntityKind

/-- 文書に現れる順に並べた種類。 -/
def all : List EntityKind := [businessRule, dataStructure, apiEndpoint, workflowStep]

/-- 診断の符号に使う名。 -/
def label : EntityKind → String
  | businessRule => "RULE"
  | dataStructure => "STRUCTURE"
  | apiEndpoint => "ENDPOINT"
  | workflowStep => "STEP"

/-- 文に書くときの呼び名。 -/
def display : EntityKind → String
  | businessRule => "business rule"
  | dataStructure => "data structure"
  | apiEndpoint => "API endpoint"
  | workflowStep => "workflow step"

end EntityKind

/-- 識別子を持ち、文書の四つの並びのどれかに入るもの。 -/
class Entity (α : Type) where
  kind : EntityKind
  id : α → String

/-! ## 業務規則 -/

/-- 業務規則。 -/
structure BusinessRule where
  id : String
  name : Option String := none
  description : Option String := none
  condition : Option String := none
  action : Option String := none
  priority : Option UInt32 := none
  /-- 規則が及ばない場合。 -/
  exceptions : List String := []
  deriving DecidableEq

instance : Entity BusinessRule := ⟨.businessRule, BusinessRule.id⟩

instance : Layout BusinessRule where
  shape := .record <|
    .one "id" String <| .maybe "name" String <| .maybe "description" String <|
    .maybe "condition" String <| .maybe "action" String <| .maybe "priority" UInt32 <|
    .default "exceptions" (List String) .nil
  toData r := .record
    [Slot.one r.id, Slot.maybe r.name, Slot.maybe r.description, Slot.maybe r.condition,
      Slot.maybe r.action, Slot.maybe r.priority, Slot.many r.exceptions]
  ofData?
    | .record [id, name, description, condition, action, priority, exceptions] => do
      return {
        id := ← Slot.one? id
        name := ← Slot.maybe? name
        description := ← Slot.maybe? description
        condition := ← Slot.maybe? condition
        action := ← Slot.maybe? action
        priority := ← Slot.maybe? priority
        exceptions := ← Slot.many? exceptions }
    | _ => none
  ofData?_toData _ := by simp

/-! ## データ構造 -/

/-- データ構造の欄。 -/
structure Field where
  name : String
  type : Option String := none
  required : Option Bool := none
  description : Option String := none
  deriving DecidableEq

instance : Layout Field where
  shape := .record <|
    .one "name" String <| .maybe "type" String <| .maybe "required" Bool <|
    .maybe "description" String .nil
  toData f := .record
    [Slot.one f.name, Slot.maybe f.type, Slot.maybe f.required, Slot.maybe f.description]
  ofData?
    | .record [name, type, required, description] => do
      return {
        name := ← Slot.one? name
        type := ← Slot.maybe? type
        required := ← Slot.maybe? required
        description := ← Slot.maybe? description }
    | _ => none
  ofData?_toData _ := by simp

/-- 別のデータ構造への関連。 -/
structure Relationship where
  /-- 相手のデータ構造の識別子。 -/
  target : String
  /-- 一対多などの種別。 -/
  kind : Option String := none
  description : Option String := none
  deriving DecidableEq

instance : Layout Relationship where
  shape := .record <|
    .one "target" String <| .maybe "kind" String <| .maybe "description" String .nil
  toData r := .record [Slot.one r.target, Slot.maybe r.kind, Slot.maybe r.description]
  ofData?
    | .record [target, kind, description] => do
      return {
        target := ← Slot.one? target
        kind := ← Slot.maybe? kind
        description := ← Slot.maybe? description }
    | _ => none
  ofData?_toData _ := by simp

/-- 欄の索引。欄の並びは空でも書き出す。 -/
structure Index where
  name : Option String := none
  fields : List String := []
  unique : Option Bool := none
  deriving DecidableEq

instance : Layout Index where
  shape := .record <|
    .maybe "name" String <| .default "fields" (List String) <| .maybe "unique" Bool .nil
  toData i := .record [Slot.maybe i.name, Slot.one i.fields, Slot.maybe i.unique]
  ofData?
    | .record [name, fields, unique] => do
      return {
        name := ← Slot.maybe? name
        fields := ← Slot.many? fields
        unique := ← Slot.maybe? unique }
    | _ => none
  ofData?_toData _ := by simp

/-- データ構造。 -/
structure DataStructure where
  id : String
  name : Option String := none
  description : Option String := none
  fields : List Field := []
  constraints : List String := []
  relationships : List Relationship := []
  indexes : List Index := []
  deriving DecidableEq

instance : Entity DataStructure := ⟨.dataStructure, DataStructure.id⟩

instance : Layout DataStructure where
  shape := .record <|
    .one "id" String <| .maybe "name" String <| .maybe "description" String <|
    .default "fields" (List Field) <| .default "constraints" (List String) <|
    .default "relationships" (List Relationship) <| .default "indexes" (List Index) .nil
  toData s := .record
    [Slot.one s.id, Slot.maybe s.name, Slot.maybe s.description, Slot.many s.fields,
      Slot.many s.constraints, Slot.many s.relationships, Slot.many s.indexes]
  ofData?
    | .record [id, name, description, fields, constraints, relationships, indexes] => do
      return {
        id := ← Slot.one? id
        name := ← Slot.maybe? name
        description := ← Slot.maybe? description
        fields := ← Slot.many? fields
        constraints := ← Slot.many? constraints
        relationships := ← Slot.many? relationships
        indexes := ← Slot.many? indexes }
    | _ => none
  ofData?_toData _ := by simp

/-! ## API の口 -/

/-- API の口が受け取る引数。 -/
structure Parameter where
  name : String
  /-- 引数の置き場所。名札は `in` である。 -/
  place : Option String := none
  type : Option String := none
  required : Option Bool := none
  deriving DecidableEq

instance : Layout Parameter where
  shape := .record <|
    .one "name" String <| .maybe "in" String <| .maybe "type" String <|
    .maybe "required" Bool .nil
  toData p := .record
    [Slot.one p.name, Slot.maybe p.place, Slot.maybe p.type, Slot.maybe p.required]
  ofData?
    | .record [name, place, type, required] => do
      return {
        name := ← Slot.one? name
        place := ← Slot.maybe? place
        type := ← Slot.maybe? type
        required := ← Slot.maybe? required }
    | _ => none
  ofData?_toData _ := by simp

/-- API の口。 -/
structure ApiEndpoint where
  id : String
  method : Option String := none
  path : Option String := none
  summary : Option String := none
  description : Option String := none
  /-- 要求の本体となるデータ構造の識別子。 -/
  requestSchema : Option String := none
  /-- 応答の本体となるデータ構造の識別子。 -/
  responseSchema : Option String := none
  auth : Option String := none
  parameters : List Parameter := []
  deriving DecidableEq

/-- 動詞と経路の組。どちらかが欠ければ組はない。動詞の ASCII 文字は大文字にそろえる。 -/
def ApiEndpoint.route? (e : ApiEndpoint) : Option (String × String) :=
  match e.method, e.path with
  | some method, some path => some (method.toUpper, path)
  | _, _ => none

instance : Entity ApiEndpoint := ⟨.apiEndpoint, ApiEndpoint.id⟩

instance : Layout ApiEndpoint where
  shape := .record <|
    .one "id" String <| .maybe "method" String <| .maybe "path" String <|
    .maybe "summary" String <| .maybe "description" String <| .maybe "request_schema" String <|
    .maybe "response_schema" String <| .maybe "auth" String <|
    .default "parameters" (List Parameter) .nil
  toData e := .record
    [Slot.one e.id, Slot.maybe e.method, Slot.maybe e.path, Slot.maybe e.summary,
      Slot.maybe e.description, Slot.maybe e.requestSchema, Slot.maybe e.responseSchema,
      Slot.maybe e.auth, Slot.many e.parameters]
  ofData?
    | .record [id, method, path, summary, description, request, response, auth, parameters] => do
      return {
        id := ← Slot.one? id
        method := ← Slot.maybe? method
        path := ← Slot.maybe? path
        summary := ← Slot.maybe? summary
        description := ← Slot.maybe? description
        requestSchema := ← Slot.maybe? request
        responseSchema := ← Slot.maybe? response
        auth := ← Slot.maybe? auth
        parameters := ← Slot.many? parameters }
    | _ => none
  ofData?_toData _ := by simp

/-! ## 作業手順 -/

/-- 作業手順の一段。 -/
structure WorkflowStep where
  id : String
  name : Option String := none
  description : Option String := none
  actor : Option String := none
  action : Option String := none
  /-- 先に終えるべき段の識別子。 -/
  dependsOn : List String := []
  outputs : List String := []
  deriving DecidableEq

instance : Entity WorkflowStep := ⟨.workflowStep, WorkflowStep.id⟩

instance : Layout WorkflowStep where
  shape := .record <|
    .one "id" String <| .maybe "name" String <| .maybe "description" String <|
    .maybe "actor" String <| .maybe "action" String <| .default "depends_on" (List String) <|
    .default "outputs" (List String) .nil
  toData s := .record
    [Slot.one s.id, Slot.maybe s.name, Slot.maybe s.description, Slot.maybe s.actor,
      Slot.maybe s.action, Slot.many s.dependsOn, Slot.many s.outputs]
  ofData?
    | .record [id, name, description, actor, action, dependsOn, outputs] => do
      return {
        id := ← Slot.one? id
        name := ← Slot.maybe? name
        description := ← Slot.maybe? description
        actor := ← Slot.maybe? actor
        action := ← Slot.maybe? action
        dependsOn := ← Slot.many? dependsOn
        outputs := ← Slot.many? outputs }
    | _ => none
  ofData?_toData _ := by simp

end SpecLineage
