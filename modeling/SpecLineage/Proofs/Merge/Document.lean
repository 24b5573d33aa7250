import Mathlib.Tactic.MkIffOfInductiveProp
import SpecLineage.Proofs.Merge.Collection

/-!
# 文書を重ねる順のまとめ替え

見出しと節は、重ねる順をいつもまとめ替えてよい。文書は、間に重ねる文書のどの並びでも識別子が重ならなければ、
まとめ替えてよい。つなぐ重ねかたでは、識別子を問わない。重ねた文書の識別子は、どの種類の実体でも、下の文書と上の文書の
識別子から決まる。
-/

namespace SpecLineage

theorem union_assoc {α : Type} [BEq α] [LawfulBEq α] (a b c : List α) :
    union (union a b) c = union a (union b c) := by
  simp only [union, List.eraseDups_eraseDups_append, List.eraseDups_append_eraseDups,
    List.append_assoc]

theorem Metadata.combine_assoc (a b c : Metadata) :
    Combine.combine (Combine.combine a b) c = Combine.combine a (Combine.combine b c) := by
  simp only [Combine.combine, pick_assoc, List.append_assoc]

theorem AiContext.combine_assoc (a b c : AiContext) :
    Combine.combine (Combine.combine a b) c = Combine.combine a (Combine.combine b c) := by
  simp only [Combine.combine, pick_assoc, union_assoc]

theorem Governance.combine_assoc (a b c : Governance) :
    Combine.combine (Combine.combine a b) c = Combine.combine a (Combine.combine b c) := by
  simp only [Combine.combine, pick_assoc, List.append_assoc]

/-- 節のどちらか片方だけにあっても、まとめ替えてよい。 -/
theorem combine_section_assoc {α : Type} [Combine α]
    (h : ∀ a b c : α,
      Combine.combine (Combine.combine a b) c = Combine.combine a (Combine.combine b c))
    (a b c : Option α) :
    Combine.combine (Combine.combine a b) c = Combine.combine a (Combine.combine b c) := by
  cases a with
  | none => cases b <;> cases c <;> rfl
  | some a =>
      cases b with
      | none => cases c <;> rfl
      | some b =>
          cases c with
          | none => rfl
          | some c => exact congrArg some (h a b c)

namespace Document

/-- どの並びでも、識別子が重ならない。 -/
@[mk_iff]
structure UniqueIds (d : Document) : Prop where
  businessRules : (ids d.businessRules).Nodup
  dataStructures : (ids d.dataStructures).Nodup
  apiEndpoints : (ids d.apiEndpoints).Nodup
  workflowSteps : (ids d.workflowSteps).Nodup

instance (d : Document) : Decidable d.UniqueIds := decidable_of_iff' _ d.uniqueIds_iff

variable {strategy : Strategy}

theorem UniqueIds.merge (hs : strategy ≠ .append) {base : Document} (h : base.UniqueIds)
    (above : Document) : (Document.merge strategy base above).UniqueIds where
  businessRules := nodup_mergeCollection hs h.businessRules above.businessRules
  dataStructures := nodup_mergeCollection hs h.dataStructures above.dataStructures
  apiEndpoints := nodup_mergeCollection hs h.apiEndpoints above.apiEndpoints
  workflowSteps := nodup_mergeCollection hs h.workflowSteps above.workflowSteps

theorem merge_assoc (base above : Document) {middle : Document}
    (h : strategy ≠ .append → middle.UniqueIds) :
    Document.merge strategy (Document.merge strategy base middle) above =
      Document.merge strategy base (Document.merge strategy middle above) := by
  have hmetadata := Metadata.combine_assoc base.metadata middle.metadata above.metadata
  have hrules := mergeCollection_assoc base.businessRules above.businessRules
    fun hs => (h hs).businessRules
  have hstructures := mergeCollection_assoc base.dataStructures above.dataStructures
    fun hs => (h hs).dataStructures
  have hendpoints := mergeCollection_assoc base.apiEndpoints above.apiEndpoints
    fun hs => (h hs).apiEndpoints
  have hsteps := mergeCollection_assoc base.workflowSteps above.workflowSteps
    fun hs => (h hs).workflowSteps
  have hcontext := combine_section_assoc AiContext.combine_assoc base.aiContext middle.aiContext
    above.aiContext
  have hgovernance := combine_section_assoc Governance.combine_assoc base.governance
    middle.governance above.governance
  simp only [Document.merge, hmetadata, hrules, hstructures, hendpoints, hsteps, hcontext,
    hgovernance, List.append_assoc]

/-! ## 種類ごとの識別子 -/

/-- その種類の実体の識別子を、文書に現れる順に並べたもの。 -/
def idsOf (d : Document) : EntityKind → List String
  | .businessRule => ids d.businessRules
  | .dataStructure => ids d.dataStructures
  | .apiEndpoint => ids d.apiEndpoints
  | .workflowStep => ids d.workflowSteps

theorem mem_idsOf_merge (base above : Document) (kind : EntityKind) {i : String} :
    i ∈ (Document.merge strategy base above).idsOf kind ↔
      i ∈ base.idsOf kind ∨ i ∈ above.idsOf kind := by
  cases kind <;> exact mem_ids_mergeCollection

theorem exists_idsOf_merge (hs : strategy ≠ .append) (base above : Document) (kind : EntityKind) :
    ∃ added, (Document.merge strategy base above).idsOf kind = base.idsOf kind ++ added ∧
      added.Nodup ∧ ∀ i ∈ added, i ∉ base.idsOf kind := by
  cases kind <;> exact exists_ids_mergeCollection hs _ _

theorem idsOf_merge_append (base above : Document) (kind : EntityKind) :
    (Document.merge .append base above).idsOf kind = base.idsOf kind ++ above.idsOf kind := by
  cases kind <;> exact (congrArg ids (mergeCollection_append _ _)).trans (ids_append _ _)

end Document
end SpecLineage
