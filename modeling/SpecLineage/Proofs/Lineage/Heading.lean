import SpecLineage.Proofs.Lineage.Stacking
import SpecLineage.Proofs.Merge.Section

/-!
# 解いた文書の見出しと節

解いた文書の見出し、節、取り込み、公開は、重ねた文書を勝つ順に並べた一つの列から決まる。実体の識別子や重ねかたには
よらない。
-/

namespace SpecLineage

namespace Stacked

variable {strategy : Strategy} {layers : List Document} {x : Document}

theorem metadata_eq (h : Stacked strategy layers x) :
    x.metadata = Metadata.composite (layers.map Document.metadata) := by
  induction h with
  | single d => exact (Metadata.composite_singleton d.metadata).symm
  | merge _ _ habove hbase => rw [List.map_append, Metadata.composite_append, ← habove, ← hbase]; rfl

theorem governance_eq (h : Stacked strategy layers x) :
    x.governance = Governance.composite? (layers.filterMap Document.governance) := by
  induction h with
  | single d =>
      rw [List.filterMap_cons, List.filterMap_nil]
      cases d.governance with
      | none => rfl
      | some g => exact congrArg some (Governance.composite_singleton g).symm
  | merge _ _ habove hbase =>
      rw [List.filterMap_append, Governance.composite?_append, ← habove, ← hbase]
      rfl

theorem aiContext_eq (h : Stacked strategy layers x) :
    x.aiContext = AiContext.composite? (layers.filterMap Document.aiContext) := by
  induction h with
  | single d =>
      rw [List.filterMap_cons, List.filterMap_nil]
      cases d.aiContext <;> rfl
  | merge _ _ habove hbase =>
      rw [List.filterMap_append, AiContext.composite?_append, ← habove, ← hbase]
      rfl

/-- 取り込みと公開のように、いつもつなぐだけの並び。 -/
theorem flatMap_eq (h : Stacked strategy layers x) {entries : Document → List String}
    (hmerge : ∀ base above, entries (Document.merge strategy base above) = entries base ++ entries above) :
    entries x = layers.reverse.flatMap entries := by
  induction h with
  | single d => simp
  | merge _ _ habove hbase => rw [hmerge, flatMap_reverse_append, habove, hbase]

end Stacked

/-- 節は、節を持つ文書があるときだけできる。 -/
theorem filterMap_ne_nil_iff {β : Type} {f : Document → Option β} {layers : List Document} :
    layers.filterMap f ≠ [] ↔ ∃ x ∈ layers, (f x).isSome = true := by
  rw [Ne, List.filterMap_eq_nil_iff]
  push Not
  simp only [Option.isSome_iff_ne_none]

theorem resolved_heading (r : Resolver) (d : Document) (base : String) (cache : Option Cache) :
    let resolved := (r.resolve d base cache).outcome.resolved
    let layers := (r.overlay cache).layers d base
    resolved.metadata = Metadata.composite (layers.map Document.metadata) ∧
    (resolved.imports = layers.reverse.flatMap Document.imports ∧
      resolved.exports = layers.reverse.flatMap Document.exports) ∧
    (resolved.governance = Governance.composite? (layers.filterMap Document.governance) ∧
      (resolved.governance.isSome = true ↔ ∃ x ∈ layers, x.governance.isSome = true)) ∧
    (resolved.aiContext = AiContext.composite? (layers.filterMap Document.aiContext) ∧
      (resolved.aiContext.isSome = true ↔ ∃ x ∈ layers, x.aiContext.isSome = true)) := by
  intro resolved layers
  have hstacked : Stacked r.options.strategy layers resolved := r.stacked_resolve d base cache
  refine ⟨hstacked.metadata_eq, ⟨hstacked.flatMap_eq fun _ _ => rfl, hstacked.flatMap_eq fun _ _ => rfl⟩,
    ⟨hstacked.governance_eq, ?_⟩, ⟨hstacked.aiContext_eq, ?_⟩⟩
  · rw [hstacked.governance_eq, ← filterMap_ne_nil_iff]
    exact Governance.isSome_composite?
  · rw [hstacked.aiContext_eq, ← filterMap_ne_nil_iff]
    exact AiContext.isSome_composite?

end SpecLineage
