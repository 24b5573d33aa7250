import SpecLineage.Lineage.Store
import SpecLineage.Proofs.Lineage.Layering
import SpecLineage.Proofs.Lineage.Simulation

/-!
# 実体の優先の順

解いた文書の実体は、重ねた文書を勝つ順に並べた一つの列から決まる。つなぐ重ねかたでは下からつないだ並びになり、
置き換える重ねかたでは初めに定めた文書の実体になり、項目ごとに重ねる重ねかたでは値ごとに初めに書いた文書のものに
なる。
-/

namespace SpecLineage

section Layered

variable {α : Type} [Entity α] [Combine α]

theorem layered_mergeCollection_append (top : List α) (rest : List (List α)) :
    layered (mergeCollection .append) top rest = (top :: rest).reverse.flatten := by
  induction rest generalizing top with
  | nil => simp [layered]
  | cons below rest ih =>
      rw [layered, mergeCollection_append, ih below, List.reverse_cons (a := top),
        List.flatten_append, List.flatten_singleton]

/-- 置き換えれば、初めに定めた並びのものになる。 -/
theorem foldr_blend?_override (layers : List (List α)) (i : String) :
    layers.foldr (fun es found => blend? .override found (Document.find? es i)) none =
      layers.findSome? (Document.find? · i) := by
  induction layers with
  | nil => rfl
  | cons es layers ih =>
      rw [List.foldr_cons, ih, List.findSome?_cons]
      cases Document.find? es i with
      | none => cases layers.findSome? (Document.find? · i) <;> rfl
      | some e => cases layers.findSome? (Document.find? · i) <;> rfl

/-- 識別子で引いた実体を、列の上から順に並べて一つに重ねたもの。 -/
def overlaid [Composite α] (layers : List (List α)) (i : String) : Option α :=
  match layers.filterMap (Document.find? · i) with
  | [] => none
  | e :: es => some (Composite.composite i (e :: es))

theorem foldr_blend?_merge [Composite α] (layers : List (List α)) (i : String) :
    layers.foldr (fun es found => blend? .merge found (Document.find? es i)) none =
      overlaid layers i := by
  induction layers with
  | nil => rfl
  | cons es layers ih =>
      rw [List.foldr_cons, ih, overlaid, overlaid, List.filterMap_cons]
      cases hfound : Document.find? es i with
      | none => cases layers.filterMap (Document.find? · i) <;> rfl
      | some e =>
          cases layers.filterMap (Document.find? · i) with
          | nil =>
              have hsingle := Composite.composite_singleton e
              rw [id_of_find? hfound] at hsingle
              exact congrArg some hsingle.symm
          | cons x xs => exact congrArg some (Composite.combine_composite i (x :: xs) e)

variable [LawfulCombine α] {strategy : Strategy}

theorem ids_layered (hs : strategy ≠ .append) (top : List α) (rest : List (List α))
    (h : ∀ es ∈ top :: rest, (ids es).Nodup) :
    ids (layered (mergeCollection strategy) top rest) =
      (ids (top :: rest).reverse.flatten).eraseDups := by
  induction rest generalizing top with
  | nil =>
      have htop := h top List.mem_cons_self
      rw [layered, List.reverse_singleton, List.flatten_singleton, List.eraseDups_eq_self htop]
  | cons below rest ih =>
      have hbelow := ih below (List.forall_mem_cons.mp h).2
      rw [layered, ids_mergeCollection hs hbelow, List.reverse_cons (a := top), List.flatten_append,
        List.flatten_singleton, ids_append]

/-- 引いたものは、列の中で引いたものを下から突き合わせたものである。 -/
theorem find?_layered (hs : strategy ≠ .append) (top : List α) (rest : List (List α))
    (h : ∀ es ∈ top :: rest, (ids es).Nodup) (i : String) :
    Document.find? (layered (mergeCollection strategy) top rest) i =
      (top :: rest).foldr (fun es found => blend? strategy found (Document.find? es i)) none := by
  induction rest generalizing top with
  | nil => cases hfound : Document.find? top i <;> simp [layered, blend?, hfound]
  | cons below rest ih =>
      obtain ⟨htop, hrest⟩ := List.forall_mem_cons.mp h
      rw [layered, find?_mergeCollection hs _ htop, ih below hrest, List.foldr_cons (a := top)]

end Layered

/-! ## 解いた並び -/

/-- 勝つ順に並べた並びの列 `layers` から、解いた並び `resolved` が決まる。 -/
structure Precedence {α : Type} [Entity α] [Combine α] [Composite α] (strategy : Strategy)
    (layers : List (List α)) (resolved : List α) : Prop where
  append : strategy = .append → resolved = layers.reverse.flatten
  ids : strategy ≠ .append → ids resolved = (ids layers.reverse.flatten).eraseDups
  override : strategy = .override → ∀ i,
    Document.find? resolved i = layers.findSome? (Document.find? · i)
  merge : strategy = .merge → ∀ i, Document.find? resolved i = overlaid layers i

theorem precedence_layered {α : Type} [Entity α] [Combine α] [LawfulCombine α] [Composite α]
    {strategy : Strategy} (top : List α) (rest : List (List α))
    (h : strategy ≠ .append → ∀ es ∈ top :: rest, (ids es).Nodup) :
    Precedence strategy (top :: rest) (layered (mergeCollection strategy) top rest) where
  append hs := by
    subst hs
    exact layered_mergeCollection_append top rest
  ids hs := ids_layered hs top rest (h hs)
  override hs i := by
    subst hs
    exact (find?_layered (by decide) top rest (h (by decide)) i).trans (foldr_blend?_override _ i)
  merge hs i := by
    subst hs
    exact (find?_layered (by decide) top rest (h (by decide)) i).trans (foldr_blend?_merge _ i)

/-- 重ねた文書のどれも、その並びの中で識別子を繰り返さない。つなぐ重ねかたでは問わない。 -/
def Unrepeated {α : Type} [Entity α] (strategy : Strategy) (documents : List Document)
    (collection : Document → List α) : Prop :=
  strategy ≠ .append → ∀ d ∈ documents, (ids (collection d)).Nodup

theorem Resolver.precedence_resolved {r : Resolver} {α : Type} [Entity α] [Combine α]
    [LawfulCombine α] [Composite α] {collection : Document → List α}
    (hmerge : ∀ base above : Document, collection (Document.merge r.options.strategy base above) =
      mergeCollection r.options.strategy (collection base) (collection above))
    (d : Document) (base : String)
    (hunique : Unrepeated r.options.strategy (r.layers d base) collection) :
    Precedence r.options.strategy ((r.layers d base).map collection)
      (collection (r.resolved d base)) := by
  have hresolved := (layers_collection hmerge).resolved d base fun v hv hs =>
    hunique hs v.document (List.mem_cons_of_mem d (List.mem_map_of_mem hv))
  have hlayers : (r.layers d base).map collection =
      collection d :: (r.visits d base).map fun v => collection v.document := by
    rw [layers, List.map_cons, List.map_map]
    rfl
  rw [hresolved, hlayers]
  refine precedence_layered _ _ fun hs es hes => ?_
  rw [← hlayers] at hes
  obtain ⟨x, hx, rfl⟩ := List.mem_map.mp hes
  exact hunique hs x hx

/-- 解いた文書の四つの並びは、重ねた文書を勝つ順に並べた列から決まる。 -/
theorem entity_precedence (r : Resolver) (d : Document) (base : String) (cache : Option Cache) :
    let resolved := (r.resolve d base cache).outcome.resolved
    let layers := (r.overlay cache).layers d base
    let strategy := r.options.strategy
    (Unrepeated strategy layers Document.businessRules →
      Precedence strategy (layers.map Document.businessRules) resolved.businessRules) ∧
    (Unrepeated strategy layers Document.dataStructures →
      Precedence strategy (layers.map Document.dataStructures) resolved.dataStructures) ∧
    (Unrepeated strategy layers Document.apiEndpoints →
      Precedence strategy (layers.map Document.apiEndpoints) resolved.apiEndpoints) ∧
    (Unrepeated strategy layers Document.workflowSteps →
      Precedence strategy (layers.map Document.workflowSteps) resolved.workflowSteps) := by
  intro resolved layers strategy
  have hresolved : resolved = (r.overlay cache).resolved d base :=
    congrArg Outcome.resolved (r.outcome_resolve d base cache)
  rw [hresolved]
  refine ⟨fun h => ?_, fun h => ?_, fun h => ?_, fun h => ?_⟩
  · exact Resolver.precedence_resolved (r := r.overlay cache) (fun _ _ => rfl) d base h
  · exact Resolver.precedence_resolved (r := r.overlay cache) (fun _ _ => rfl) d base h
  · exact Resolver.precedence_resolved (r := r.overlay cache) (fun _ _ => rfl) d base h
  · exact Resolver.precedence_resolved (r := r.overlay cache) (fun _ _ => rfl) d base h

/-- 根は `b` と `c` とを親とし、`b` も `c` を親とする系譜。 -/
def Resolver.diamond : Resolver where
  load := Store.load { documents := ⟨[
    ("b", { parents := ["c"], businessRules := [{ id := "x", name := some "b" }] }),
    ("c", { businessRules := [{ id := "y" }, { id := "x", name := some "c", action := some "c" }] })]⟩ }
  addressing := ⟨id, fun reference _ => .ok reference⟩

theorem entity_precedence_diamond :
    let root : Document :=
      { parents := ["b", "c"], businessRules := [{ id := "x", description := some "a" }] }
    let resolved := (Resolver.diamond.resolve root "a" none).outcome.resolved
    Unrepeated .merge ((Resolver.diamond.overlay none).layers root "a") Document.businessRules ∧
      ids resolved.businessRules = ["y", "x"] ∧
      resolved.businessRule? "x" =
        some { id := "x", name := some "b", description := some "a", action := some "c" } := by
  intro root resolved
  have hunique : Unrepeated .merge ((Resolver.diamond.overlay none).layers root "a")
      Document.businessRules := by
    intro _
    decide +kernel
  obtain ⟨hrules, -⟩ := entity_precedence .diamond root "a" none
  have hprecedence := hrules hunique
  refine ⟨hunique, ?_, ?_⟩
  · exact (hprecedence.ids (by decide)).trans (by decide +kernel)
  · exact (hprecedence.merge rfl "x").trans (by decide +kernel)

end SpecLineage
