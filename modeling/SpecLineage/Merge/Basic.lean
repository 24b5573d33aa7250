import SpecLineage.Merge.Combine
import SpecLineage.Options

/-!
# 文書を重ねる

祖先の文書の上に子孫の文書を重ねる。実体の並びは識別子で突き合わせ、見出しと節は項目ごとに重ね、取り込みと
公開はつなぐ。親への参照は上の文書のものを残す。重ねた結果に生じる重複や行き先のない依存は、ここでは
とがめない。
-/

namespace SpecLineage

variable {α : Type} [Entity α] [Combine α]

/-- 実体を一つ並びに置く。同じ識別子を持つ最初の実体と突き合わせ、なければ末尾に置く。 -/
def place (strategy : Strategy) (es : List α) (e : α) : List α :=
  match es with
  | [] => [e]
  | x :: xs =>
    if Entity.id x = Entity.id e then
      match strategy with
      | .override => e :: xs
      | .merge => Combine.combine x e :: xs
      | .append => x :: (xs ++ [e])
    else x :: place strategy xs e

/-- 下の並びに、上の並びの実体を順に置く。 -/
def mergeCollection (strategy : Strategy) (base above : List α) : List α :=
  above.foldl (place strategy) base

/-- 下の文書に上の文書を重ねる。 -/
def Document.merge (strategy : Strategy) (base above : Document) : Document where
  metadata := Combine.combine base.metadata above.metadata
  parents := above.parents
  imports := base.imports ++ above.imports
  exports := base.exports ++ above.exports
  businessRules := mergeCollection strategy base.businessRules above.businessRules
  dataStructures := mergeCollection strategy base.dataStructures above.dataStructures
  apiEndpoints := mergeCollection strategy base.apiEndpoints above.apiEndpoints
  workflowSteps := mergeCollection strategy base.workflowSteps above.workflowSteps
  aiContext := Combine.combine base.aiContext above.aiContext
  governance := Combine.combine base.governance above.governance

end SpecLineage
