import SpecLineage.Proofs.Distinct
import SpecLineage.Proofs.Merge.Entity

/-!
# 見出しと節の列

勝つ順に並べた見出しや節を一つにまとめると、値は初めに書かれたものになり、並びは下から順につないだものになる。列を上と下に
分け、それぞれをまとめてから重ねても、同じものになる。
-/

namespace SpecLineage

theorem combine_none {α : Type} [Combine α] (base : Option α) :
    Combine.combine base (none : Option α) = base := by
  cases base <;> rfl

/-! ## 見出し -/

def Metadata.composite (ms : List Metadata) : Metadata where
  id := ms.findSome? Metadata.id
  version := ms.findSome? Metadata.version
  title := ms.findSome? Metadata.title
  description := ms.findSome? Metadata.description
  author := ms.findSome? Metadata.author
  tags := ms.reverse.flatMap Metadata.tags

theorem Metadata.composite_singleton (m : Metadata) : composite [m] = m := by
  simp [composite, List.findSome?_singleton]

theorem Metadata.composite_append (upper lower : List Metadata) :
    composite (upper ++ lower) = Combine.combine (composite lower) (composite upper) := by
  simp only [composite, Combine.combine, findSome?_append_eq_pick, flatMap_reverse_append]

/-! ## 統制 -/

namespace Governance

def composite (gs : List Governance) : Governance where
  owner := gs.findSome? Governance.owner
  status := gs.findSome? Governance.status
  dataClassification := gs.findSome? Governance.dataClassification
  reviewCycle := gs.findSome? Governance.reviewCycle
  complianceFrameworks := gs.reverse.flatMap Governance.complianceFrameworks
  auditTrail := gs.reverse.flatMap Governance.auditTrail

theorem composite_singleton (g : Governance) : composite [g] = g := by
  simp [composite, List.findSome?_singleton]

theorem composite_append (upper lower : List Governance) :
    composite (upper ++ lower) = Combine.combine (composite lower) (composite upper) := by
  simp only [composite, Combine.combine, findSome?_append_eq_pick, flatMap_reverse_append]

/-- 節を持つ文書があるときだけ、節ができる。 -/
def composite? : List Governance → Option Governance
  | [] => none
  | g :: gs => some (composite (g :: gs))

theorem isSome_composite? {gs : List Governance} : (composite? gs).isSome = true ↔ gs ≠ [] := by
  cases gs <;> simp [composite?]

theorem composite?_append (upper lower : List Governance) :
    composite? (upper ++ lower) = Combine.combine (composite? lower) (composite? upper) := by
  cases upper with
  | nil => exact (combine_none (composite? lower)).symm
  | cons g upper =>
      cases lower with
      | nil => rw [List.append_nil]; rfl
      | cons g' lower => exact congrArg some (composite_append (g :: upper) (g' :: lower))

end Governance

/-! ## AI への手がかり -/

namespace AiContext

def composite (cs : List AiContext) : AiContext where
  summary := cs.findSome? AiContext.summary
  modelHints := (cs.reverse.flatMap AiContext.modelHints).eraseDups
  constraints := (cs.reverse.flatMap AiContext.constraints).eraseDups
  examples := (cs.reverse.flatMap AiContext.examples).eraseDups
  maxTokens := cs.findSome? AiContext.maxTokens

/-- 節を持つ文書が一つだけなら、その節は繰り返しも含めてそのまま残る。 -/
def composite? : List AiContext → Option AiContext
  | [] => none
  | [c] => some c
  | c :: c' :: cs => some (composite (c :: c' :: cs))

example : composite? [{ modelHints := ["x", "x"] }] = some { modelHints := ["x", "x"] } := rfl

theorem isSome_composite? {cs : List AiContext} : (composite? cs).isSome = true ↔ cs ≠ [] := by
  rcases cs with _ | ⟨c, _ | ⟨c', cs⟩⟩ <;> simp [composite?]

theorem composite?_of_two (c c' : AiContext) (upper lower : List AiContext) :
    composite? (c :: upper ++ c' :: lower) = some (composite (c :: upper ++ c' :: lower)) := by
  cases upper <;> rfl

theorem combine_eq_composite (base above : AiContext) :
    Combine.combine base above = composite [above, base] := by
  have hpick : ∀ {β : Type} (f : AiContext → Option β),
      [above, base].findSome? f = pick (f base) (f above) := by
    intro β f
    rw [List.findSome?_cons, List.findSome?_singleton]
    cases f above <;> rfl
  simp [composite, hpick, Combine.combine, union]

/-- 列を、まとめれば同じになる列に置き換えてよい。 -/
theorem composite_congr {upper upper' lower lower' : List AiContext}
    (hupper : composite upper = composite upper') (hlower : composite lower = composite lower') :
    composite (upper ++ lower) = composite (upper' ++ lower') := by
  simp only [composite, AiContext.mk.injEq] at hupper hlower
  obtain ⟨hsummary, hhints, hconstraints, hexamples, hmaxTokens⟩ := hupper
  obtain ⟨hsummary', hhints', hconstraints', hexamples', hmaxTokens'⟩ := hlower
  simp only [composite, findSome?_append_eq_pick, flatMap_reverse_append, AiContext.mk.injEq]
  refine ⟨?_, ?_, ?_, ?_, ?_⟩
  · rw [hsummary, hsummary']
  · exact List.eraseDups_append_congr hhints' hhints
  · exact List.eraseDups_append_congr hconstraints' hconstraints
  · exact List.eraseDups_append_congr hexamples' hexamples
  · rw [hmaxTokens, hmaxTokens']

/-- 一つだけの節をそのまま残しても、まとめ直せば同じになる。 -/
theorem exists_composite? (c : AiContext) (cs : List AiContext) :
    ∃ x, composite? (c :: cs) = some x ∧ composite [x] = composite (c :: cs) := by
  cases cs with
  | nil => exact ⟨c, rfl, rfl⟩
  | cons c' cs =>
      refine ⟨_, rfl, ?_⟩
      simp [composite, List.findSome?_singleton, List.eraseDups_eq_self, List.nodup_eraseDups]

theorem composite?_append (upper lower : List AiContext) :
    composite? (upper ++ lower) = Combine.combine (composite? lower) (composite? upper) := by
  cases upper with
  | nil => exact (combine_none (composite? lower)).symm
  | cons c upper =>
      cases lower with
      | nil => rw [List.append_nil]; rfl
      | cons c' lower =>
          obtain ⟨above, habove, hupper⟩ := exists_composite? c upper
          obtain ⟨base, hbase, hlower⟩ := exists_composite? c' lower
          rw [composite?_of_two, habove, hbase, ← composite_congr hupper hlower]
          exact congrArg some (combine_eq_composite base above).symm

end AiContext
end SpecLineage
