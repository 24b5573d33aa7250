import SpecLineage.Merge.Combine

/-!
# 実体を重ねる

実体を重ねても識別子は下のものに変わらず、重ねる順はまとめ替えてよい。実体の列を上から順に重ねると、値は初めに
書かれたものになり、並びは下から順につないだものになる。
-/

namespace SpecLineage

theorem pick_assoc {α : Type} (a b c : Option α) : pick (pick a b) c = pick a (pick b c) := by
  cases c with
  | none => rfl
  | some c => rfl

/-- 上に並ぶものの値が書かれていれば、下の値は使わない。 -/
theorem findSome?_append_eq_pick {α β : Type} (f : α → Option β) (upper lower : List α) :
    (upper ++ lower).findSome? f = pick (lower.findSome? f) (upper.findSome? f) := by
  rw [List.findSome?_append]
  cases upper.findSome? f <;> rfl

theorem pick_findSome? {α β : Type} (f : α → Option β) (e : α) (es : List α) :
    pick (es.findSome? f) (f e) = (e :: es).findSome? f := by
  rw [← List.singleton_append, findSome?_append_eq_pick, List.findSome?_singleton]

theorem flatMap_reverse_append {α β : Type} (f : α → List β) (upper lower : List α) :
    (upper ++ lower).reverse.flatMap f = lower.reverse.flatMap f ++ upper.reverse.flatMap f := by
  rw [List.reverse_append, List.flatMap_append]

theorem flatMap_reverse_cons {α β : Type} (f : α → List β) (e : α) (es : List α) :
    (e :: es).reverse.flatMap f = es.reverse.flatMap f ++ f e := by
  rw [← List.singleton_append, flatMap_reverse_append, List.reverse_singleton, List.flatMap_singleton]

/-! ## 重ねかたの法則 -/

class LawfulCombine (α : Type) [Entity α] [Combine α] : Prop where
  id_combine (base above : α) : Entity.id (Combine.combine base above) = Entity.id base
  combine_assoc (a b c : α) :
    Combine.combine (Combine.combine a b) c = Combine.combine a (Combine.combine b c)

instance : LawfulCombine BusinessRule where
  id_combine _ _ := rfl
  combine_assoc a b c := by simp only [Combine.combine, pick_assoc, List.append_assoc]

instance : LawfulCombine DataStructure where
  id_combine _ _ := rfl
  combine_assoc a b c := by simp only [Combine.combine, pick_assoc, List.append_assoc]

instance : LawfulCombine ApiEndpoint where
  id_combine _ _ := rfl
  combine_assoc a b c := by simp only [Combine.combine, pick_assoc, List.append_assoc]

instance : LawfulCombine WorkflowStep where
  id_combine _ _ := rfl
  combine_assoc a b c := by simp only [Combine.combine, pick_assoc, List.append_assoc]

/-! ## 実体の列 -/

/-- 上から順に並べた実体を、項目ごとに一つに重ねたもの。 -/
class Composite (α : Type) [Entity α] [Combine α] where
  composite (id : String) (es : List α) : α
  composite_singleton (e : α) : composite (Entity.id e) [e] = e
  combine_composite (id : String) (es : List α) (e : α) :
    Combine.combine (composite id es) e = composite id (e :: es)

def BusinessRule.composite (id : String) (es : List BusinessRule) : BusinessRule where
  id
  name := es.findSome? BusinessRule.name
  description := es.findSome? BusinessRule.description
  condition := es.findSome? BusinessRule.condition
  action := es.findSome? BusinessRule.action
  priority := es.findSome? BusinessRule.priority
  exceptions := es.reverse.flatMap BusinessRule.exceptions

def DataStructure.composite (id : String) (es : List DataStructure) : DataStructure where
  id
  name := es.findSome? DataStructure.name
  description := es.findSome? DataStructure.description
  fields := es.reverse.flatMap DataStructure.fields
  constraints := es.reverse.flatMap DataStructure.constraints
  relationships := es.reverse.flatMap DataStructure.relationships
  indexes := es.reverse.flatMap DataStructure.indexes

def ApiEndpoint.composite (id : String) (es : List ApiEndpoint) : ApiEndpoint where
  id
  method := es.findSome? ApiEndpoint.method
  path := es.findSome? ApiEndpoint.path
  summary := es.findSome? ApiEndpoint.summary
  description := es.findSome? ApiEndpoint.description
  requestSchema := es.findSome? ApiEndpoint.requestSchema
  responseSchema := es.findSome? ApiEndpoint.responseSchema
  auth := es.findSome? ApiEndpoint.auth
  parameters := es.reverse.flatMap ApiEndpoint.parameters

def WorkflowStep.composite (id : String) (es : List WorkflowStep) : WorkflowStep where
  id
  name := es.findSome? WorkflowStep.name
  description := es.findSome? WorkflowStep.description
  actor := es.findSome? WorkflowStep.actor
  action := es.findSome? WorkflowStep.action
  dependsOn := es.reverse.flatMap WorkflowStep.dependsOn
  outputs := es.reverse.flatMap WorkflowStep.outputs

instance : Composite BusinessRule where
  composite := BusinessRule.composite
  composite_singleton e := by
    simp [BusinessRule.composite, Entity.id, List.findSome?_singleton]
  combine_composite id es e := by
    simp only [BusinessRule.composite, Combine.combine, pick_findSome?, flatMap_reverse_cons]

instance : Composite DataStructure where
  composite := DataStructure.composite
  composite_singleton e := by
    simp [DataStructure.composite, Entity.id, List.findSome?_singleton]
  combine_composite id es e := by
    simp only [DataStructure.composite, Combine.combine, pick_findSome?, flatMap_reverse_cons]

instance : Composite ApiEndpoint where
  composite := ApiEndpoint.composite
  composite_singleton e := by
    simp [ApiEndpoint.composite, Entity.id, List.findSome?_singleton]
  combine_composite id es e := by
    simp only [ApiEndpoint.composite, Combine.combine, pick_findSome?, flatMap_reverse_cons]

instance : Composite WorkflowStep where
  composite := WorkflowStep.composite
  composite_singleton e := by
    simp [WorkflowStep.composite, Entity.id, List.findSome?_singleton]
  combine_composite id es e := by
    simp only [WorkflowStep.composite, Combine.combine, pick_findSome?, flatMap_reverse_cons]

end SpecLineage
