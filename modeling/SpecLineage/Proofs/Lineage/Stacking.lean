import SpecLineage.Proofs.Lineage.Simulation

/-!
# 文書の積み重ね

系譜の解決は、解いた親を積み上げた結果の下に重ねていく。重ねる順の木がどんな形でも、解いた文書は、重ねた文書を勝つ順に
並べた列を積み重ねたものである。解いた文書から読み取れることは、積み重ねの規則についての帰納で示せる。
-/

namespace SpecLineage

/-- 勝つ順に並べた文書の列を、隣りあう部分どうし重ねて一つにしたもの。どこから重ねてもよい。 -/
inductive Stacked (strategy : Strategy) : List Document → Document → Prop where
  | single (d : Document) : Stacked strategy [d] d
  | merge {upper lower : List Document} {above base : Document} :
      Stacked strategy upper above → Stacked strategy lower base →
      Stacked strategy (upper ++ lower) (Document.merge strategy base above)

/-- 親への参照は、いちばん上の文書のものが残る。 -/
theorem Stacked.exists_top {strategy : Strategy} {layers : List Document} {x : Document}
    (h : Stacked strategy layers x) :
    ∃ top rest, layers = top :: rest ∧ x.parents = top.parents := by
  induction h with
  | single d => exact ⟨d, [], rfl, rfl⟩
  | merge _ _ habove _ =>
      obtain ⟨top, rest, rfl, hparents⟩ := habove
      exact ⟨top, _, rfl, hparents⟩

namespace Resolver

variable {r : Resolver}

theorem stacked_foldParent {sub : Visit → Document} {lower : Visit → List Visit}
    (hsub : ∀ parent : Visit,
      Stacked r.options.strategy ((parent :: lower parent).map Visit.document) (sub parent))
    (v : Visit) (reference : String) {upper : List Document} {result : Document}
    (h : Stacked r.options.strategy upper result) :
    Stacked r.options.strategy (upper ++ (r.below lower v reference).map Visit.document)
      (r.foldParent sub v result reference) := by
  unfold foldParent below
  cases (r.fate v reference).next? v with
  | none => rwa [List.map_nil, List.append_nil]
  | some parent => exact h.merge (hsub parent)

theorem stacked_compose (left : Nat) : ∀ v : Visit, Stacked r.options.strategy
    ((v :: visitsOf (r.trail left v)).map Visit.document) (r.compose left v) := by
  induction left with
  | zero => exact fun v => .single v.document
  | succ left ih =>
      intro v
      -- 参照を一つたどるごとに、それまでの列の下に親の列が続く。
      have hfold : ∀ (references : List String) (upper : List Document) (result : Document),
          Stacked r.options.strategy upper result →
          Stacked r.options.strategy
            (upper ++ (references.flatMap
              (r.below (fun parent => visitsOf (r.trail left parent)) v)).map Visit.document)
            (references.foldl (r.foldParent (r.compose left) v) result) := by
        intro references
        induction references with
        | nil =>
            intro upper result h
            rwa [List.flatMap_nil, List.map_nil, List.append_nil]
        | cons reference references ihr =>
            intro upper result h
            rw [List.flatMap_cons, List.map_append, ← List.append_assoc]
            exact ihr _ _ (stacked_foldParent ih v reference h)
      rw [visitsOf_trail]
      exact hfold v.document.parents [v.document] v.document (.single v.document)

theorem stacked_resolved (r : Resolver) (d : Document) (base : String) :
    Stacked r.options.strategy (r.layers d base) (r.resolved d base) :=
  stacked_compose (r.options.maxDepth + 1) (r.root d base)

/-- 解決の結果の文書は、蓄えを先に見る読み込みで重ねた文書の列を積み重ねたものである。 -/
theorem stacked_resolve (r : Resolver) (d : Document) (base : String) (cache : Option Cache) :
    Stacked r.options.strategy ((r.overlay cache).layers d base)
      (r.resolve d base cache).outcome.resolved := by
  rw [outcome_resolve]
  exact (r.overlay cache).stacked_resolved d base

end Resolver
end SpecLineage
