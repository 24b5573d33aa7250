import SpecLineage.Proofs.Lineage.Precedence
import SpecLineage.Proofs.Lineage.Simulation
import SpecLineage.Proofs.Merge.Document

/-!
# 解いた文書は一列に重ねた文書である

系譜を解いた文書は、重ねた文書を勝つ順に一列に並べ、いちばん下の文書から順に上の文書を重ねたものに等しい。
重ねるあいだの入れ子の形は、結果に関わらない。
-/

namespace SpecLineage

theorem layers_document (strategy : Strategy) :
    Layers strategy id (Document.merge strategy) fun d => strategy ≠ .append → d.UniqueIds where
  merge _ _ := rfl
  assoc base _ above hmiddle := Document.merge_assoc base above hmiddle
  good _ above hbase hs := (hbase hs).merge hs above

theorem layered_eq_foldl {β : Type} (op : β → β → β) (top : β) (rest : List β) :
    ∃ bottom upper, (top :: rest).reverse = bottom :: upper ∧
      layered op top rest = upper.foldl op bottom := by
  induction rest generalizing top with
  | nil => exact ⟨top, [], rfl, rfl⟩
  | cons below rest ih =>
      obtain ⟨bottom, upper, hreverse, hfold⟩ := ih below
      refine ⟨bottom, upper ++ [top], ?_, ?_⟩
      · rw [List.reverse_cons, hreverse, List.cons_append]
      · rw [layered, hfold, List.foldl_append]
        rfl

namespace Resolver

variable {r : Resolver}

theorem parents_compose (left : Nat) (v : Visit) :
    (r.compose left v).parents = v.document.parents := by
  obtain ⟨top, rest, hlayers, hparents⟩ := (stacked_compose (r := r) left v).exists_top
  obtain ⟨rfl, -⟩ := List.cons.inj hlayers
  exact hparents

theorem resolved_eq_layered (d : Document) (base : String)
    (hunique : r.options.strategy ≠ .append → ∀ v ∈ r.visits d base, v.document.UniqueIds) :
    r.resolved d base =
      layered (Document.merge r.options.strategy) d ((r.visits d base).map Visit.document) :=
  (layers_document r.options.strategy).resolved d base fun v hv hs => hunique hs v hv

end Resolver

/-- 入れ子に重ねた結果は、いちばん下の文書から順に一つずつ重ねた結果に等しい。親への参照は根のものが残る。 -/
theorem resolve_eq_foldl (r : Resolver) (d : Document) (base : String) (cache : Option Cache) :
    let resolved := (r.resolve d base cache).outcome.resolved
    let overlay := r.overlay cache
    ((r.options.strategy ≠ .append → ∀ v ∈ overlay.visits d base, v.document.UniqueIds) →
      ∃ bottom upper, (overlay.layers d base).reverse = bottom :: upper ∧
        resolved = upper.foldl (Document.merge r.options.strategy) bottom) ∧
    resolved.parents = d.parents := by
  intro resolved overlay
  have hresolved : resolved = overlay.resolved d base :=
    congrArg Outcome.resolved (r.outcome_resolve d base cache)
  rw [hresolved]
  refine ⟨fun hunique => ?_, Resolver.parents_compose _ _⟩
  obtain ⟨bottom, upper, hreverse, hfold⟩ := layered_eq_foldl
    (Document.merge r.options.strategy) d ((overlay.visits d base).map Visit.document)
  exact ⟨bottom, upper, hreverse, (Resolver.resolved_eq_layered d base hunique).trans hfold⟩

/-- 根は識別子を繰り返してよい。 -/
theorem resolve_eq_foldl_diamond :
    let root : Document := {
      parents := ["b", "c"]
      businessRules := [{ id := "x", description := some "a" }, { id := "x", name := some "a" }] }
    let overlay := Resolver.diamond.overlay none
    let resolved := (Resolver.diamond.resolve root "a" none).outcome.resolved
    Resolver.diamond.options.strategy = .merge ∧
      (∀ v ∈ overlay.visits root "a", v.document.UniqueIds) ∧
      (∃ bottom upper, (overlay.layers root "a").reverse = bottom :: upper ∧ upper.length = 3 ∧
        resolved = upper.foldl (Document.merge .merge) bottom) ∧
      resolved.parents = ["b", "c"] := by
  intro root overlay resolved
  have hunique : ∀ v ∈ overlay.visits root "a", v.document.UniqueIds := by decide +kernel
  have hlength : (overlay.layers root "a").length = 4 := by decide +kernel
  obtain ⟨hfold, hparents⟩ := resolve_eq_foldl .diamond root "a" none
  obtain ⟨bottom, upper, hreverse, hresolved⟩ := hfold fun _ => hunique
  refine ⟨rfl, hunique, ⟨bottom, upper, hreverse, ?_, hresolved⟩, hparents⟩
  have hcount := congrArg List.length hreverse
  rw [List.length_reverse, hlength, List.length_cons] at hcount
  omega

end SpecLineage
