import SpecLineage.Lineage.Store
import SpecLineage.Proofs.Consistency
import SpecLineage.Proofs.Lineage.Agreement
import SpecLineage.Proofs.Lineage.Heading

/-!
# 重ねかたと検査は、たどりかたに関わらない

重ねかたと検査の有無だけが違う二つの解決は、同じ跡を残す。だから、読み込みも、祖先も、検査の前の診断も同じであり、
解いた文書は実体の並びのほかは等しい。重ねた文書のどこにも同じ識別子が二度現れなければ、実体の並びも等しい。
-/

namespace SpecLineage

/-! ## 積み重ねた文書 -/

/-- 実体の並びを空にした文書。 -/
def Document.withoutEntities (d : Document) : Document :=
  { d with businessRules := [], dataStructures := [], apiEndpoints := [], workflowSteps := [] }

/-- どの種類の実体でも、文書の列の全体で識別子が重ならない。 -/
def Conflictless (layers : List Document) : Prop :=
  ∀ kind, (layers.flatMap (Document.idsOf · kind)).Nodup

namespace Stacked

variable {strategy strategy' : Strategy} {layers : List Document} {x x' : Document}

/-- 実体の並びのほかは、重ねかたによらない。 -/
theorem withoutEntities_eq (h : Stacked strategy layers x) (h' : Stacked strategy' layers x') :
    x.withoutEntities = x'.withoutEntities := by
  have hparents : x.parents = x'.parents := by
    obtain ⟨top, rest, rfl, hx⟩ := h.exists_top
    obtain ⟨top', rest', htop, hx'⟩ := h'.exists_top
    obtain ⟨rfl, -⟩ := List.cons.inj htop
    exact hx.trans hx'.symm
  have himports : x.imports = x'.imports :=
    (h.flatMap_eq fun _ _ => rfl).trans (h'.flatMap_eq fun _ _ => rfl).symm
  have hexports : x.exports = x'.exports :=
    (h.flatMap_eq fun _ _ => rfl).trans (h'.flatMap_eq fun _ _ => rfl).symm
  simp only [Document.withoutEntities, hparents, himports, hexports, h.metadata_eq, h'.metadata_eq,
    h.aiContext_eq, h'.aiContext_eq, h.governance_eq, h'.governance_eq]

theorem collection_eq {α : Type} [Entity α] [Combine α] {collection : Document → List α}
    (hmerge : ∀ base above, collection (Document.merge strategy base above) =
      mergeCollection strategy (collection base) (collection above))
    (h : Stacked strategy layers x) (hnodup : (ids (layers.reverse.flatMap collection)).Nodup) :
    collection x = layers.reverse.flatMap collection := by
  induction h with
  | single d => simp
  | merge _ _ habove hbase =>
      rw [flatMap_reverse_append] at hnodup ⊢
      have hsplit := hnodup
      rw [ids_append] at hsplit
      rw [hmerge, habove hsplit.of_append_right, hbase hsplit.of_append_left,
        mergeCollection_of_nodup hnodup]

theorem eq_of_conflictless (h : Stacked strategy layers x) (h' : Stacked strategy' layers x')
    (hconflictless : Conflictless layers) : x = x' := by
  have hreverse : ∀ {α : Type} [Entity α] (collection : Document → List α),
      (layers.flatMap fun d => ids (collection d)).Nodup →
        (ids (layers.reverse.flatMap collection)).Nodup := by
    intro α _ collection hnodup
    rw [ids, List.map_flatMap]
    exact ((List.reverse_perm layers).flatMap_right _).nodup_iff.mpr hnodup
  have hrules := hreverse Document.businessRules (hconflictless .businessRule)
  have hstructures := hreverse Document.dataStructures (hconflictless .dataStructure)
  have hendpoints := hreverse Document.apiEndpoints (hconflictless .apiEndpoint)
  have hsteps := hreverse Document.workflowSteps (hconflictless .workflowStep)
  have hrest := h.withoutEntities_eq h'
  simp only [Document.withoutEntities, Document.mk.injEq, true_and] at hrest
  obtain ⟨hmetadata, hparents, himports, hexports, haiContext, hgovernance⟩ := hrest
  have hrules' := (h.collection_eq (fun _ _ => rfl) hrules).trans
    (h'.collection_eq (fun _ _ => rfl) hrules).symm
  have hstructures' := (h.collection_eq (fun _ _ => rfl) hstructures).trans
    (h'.collection_eq (fun _ _ => rfl) hstructures).symm
  have hendpoints' := (h.collection_eq (fun _ _ => rfl) hendpoints).trans
    (h'.collection_eq (fun _ _ => rfl) hendpoints).symm
  have hsteps' := (h.collection_eq (fun _ _ => rfl) hsteps).trans
    (h'.collection_eq (fun _ _ => rfl) hsteps).symm
  cases x
  cases x'
  simp only [Document.mk.injEq]
  exact ⟨hmetadata, hparents, himports, hexports, hrules', hstructures', hendpoints', hsteps',
    haiContext, hgovernance⟩

end Stacked

/-! ## 跡 -/

namespace Resolver

/-- 重ねかたと検査の有無を換えた解決。 -/
def withMerging (r : Resolver) (strategy : Strategy) (checkConsistency : Bool) : Resolver :=
  { r with options := { r.options with strategy, checkConsistency } }

theorem trail_withMerging (r : Resolver) (strategy : Strategy) (check : Bool) (left : Nat) :
    ∀ v, (r.withMerging strategy check).trail left v = r.trail left v := by
  induction left with
  | zero => exact fun v => rfl
  | succ left ih =>
      intro v
      refine List.flatMap_congr fun reference _ => ?_
      exact branch_congr rfl fun parent _ => ih parent

theorem events_withMerging (r : Resolver) (strategy : Strategy) (check : Bool) (d : Document)
    (base : String) : (r.withMerging strategy check).events d base = r.events d base :=
  r.trail_withMerging strategy check (r.options.maxDepth + 1) (r.root d base)

theorem visits_withMerging (r : Resolver) (strategy : Strategy) (check : Bool) (d : Document)
    (base : String) : (r.withMerging strategy check).visits d base = r.visits d base :=
  congrArg visitsOf (r.events_withMerging strategy check d base)

theorem resolved_withMerging (r : Resolver) (strategy : Strategy) (check check' : Bool)
    (d : Document) (base : String) : (r.withMerging strategy check).resolved d base =
      (r.withMerging strategy check').resolved d base := by
  have hstrategy : (r.withMerging strategy check).options.strategy =
      (r.withMerging strategy check').options.strategy := rfl
  exact (trail_congr (P := fun _ => True) hstrategy (fun _ _ _ _ _ _ => trivial)
    (fun _ _ _ _ => rfl) (r.options.maxDepth + 1) (r.root d base) trivial).2

theorem stacked_withMerging (r : Resolver) (strategy : Strategy) (check : Bool) (d : Document)
    (base : String) : Stacked strategy (r.layers d base)
      ((r.withMerging strategy check).resolved d base) := by
  have hstacked := (r.withMerging strategy check).stacked_resolved d base
  rwa [layers, visits_withMerging] at hstacked

/-! ## 結果 -/

variable {r : Resolver} {d : Document} {base : String}

/-- 結果の警告は、跡の警告である。検査からは警告が生じない。 -/
theorem warnings_plain (r : Resolver) (d : Document) (base : String) :
    (r.plain d base).warnings = warningsOf (notesOf r.options.maxDepth (r.events d base)) := by
  have hcheck : ∀ check : Bool,
      warningsOf (if check then (r.resolved d base).check else []) = [] := by
    intro check
    cases check with
    | false => rfl
    | true => exact (errorsOf_check _).2
  rw [plain, findings, warningsOf_append, hcheck, List.append_nil]

theorem warnings_withMerging (r : Resolver) (strategy : Strategy) (check : Bool) (d : Document)
    (base : String) :
    ((r.withMerging strategy check).plain d base).warnings = (r.plain d base).warnings := by
  rw [warnings_plain, warnings_plain, events_withMerging]
  rfl

theorem ancestors_withMerging (r : Resolver) (strategy : Strategy) (check : Bool) (d : Document)
    (base : String) :
    ((r.withMerging strategy check).plain d base).ancestors = (r.plain d base).ancestors :=
  congrArg (fun vs => (vs.map Visit.location).eraseDups) (r.visits_withMerging strategy check d base)

theorem errors_withMerging (h : r.options.maxErrors = none) (strategy : Strategy) (check : Bool)
    (d : Document) (base : String) : ((r.withMerging strategy check).plain d base).errors =
      errorsOf (notesOf r.options.maxDepth (r.events d base)) ++
        if d.hasParents && check then ((r.withMerging strategy check).resolved d base).check
        else [] := by
  have herrors := (plain_of_uncapped (r := r.withMerging strategy check) h d base).1
  rw [herrors, findings, errorsOf_append, events_withMerging]
  refine congrArg (errorsOf (notesOf r.options.maxDepth (r.events d base)) ++ ·) ?_
  rw [withMerging]
  split
  · exact (errorsOf_check _).1
  · rfl

theorem fetched_withMerging (r : Resolver) (strategy : Strategy) (check : Bool) (d : Document)
    (base : String) (cache : Option Cache) :
    ((r.withMerging strategy check).resolve d base cache).cache = (r.resolve d base cache).cache ∧
      ((r.withMerging strategy check).resolve d base cache).requests =
        (r.resolve d base cache).requests := by
  have hevents : ((r.withMerging strategy check).overlay cache).events d base =
      (r.overlay cache).events d base := (r.overlay cache).events_withMerging strategy check d base
  have hwalk : (r.withMerging strategy check).fetchedWalk d base cache =
      r.fetchedWalk d base cache := by
    rw [fetchedWalk, fetchedWalk, hevents]
    rfl
  have hmerged := (r.withMerging strategy check).fetched_resolve d base cache
  rw [hwalk] at hmerged
  have hplain := r.fetched_resolve d base cache
  exact ⟨hmerged.1.trans hplain.1.symm, hmerged.2.trans hplain.2.symm⟩

end Resolver

theorem traversal_ignores_merging (r : Resolver) (d : Document) (base : String)
    (cache : Option Cache) (huncapped : r.options.maxErrors = none) :
    let run (strategy : Strategy) (check : Bool) := (r.withMerging strategy check).resolve d base cache
    (∀ s s' c c',
      (run s c).outcome.ancestors = (run s' c').outcome.ancestors ∧
      (run s c).requests = (run s' c').requests ∧
      (run s c).cache = (run s' c').cache ∧
      (run s c).outcome.warnings = (run s' c').outcome.warnings ∧
      (run s c).outcome.resolved.withoutEntities = (run s' c').outcome.resolved.withoutEntities) ∧
    (∀ s s', (run s false).outcome.errors = (run s' false).outcome.errors) ∧
    (∀ s, (run s true).outcome.resolved = (run s false).outcome.resolved ∧
      (run s true).outcome.errors = (run s false).outcome.errors ++
        if d.hasParents then (run s true).outcome.resolved.check else []) ∧
    (Conflictless ((r.overlay cache).layers d base) → ∀ s s' c c',
      (run s c).outcome.resolved = (run s' c').outcome.resolved) := by
  intro run
  have houtcome : ∀ s c, (run s c).outcome = ((r.overlay cache).withMerging s c).plain d base :=
    fun s c => (r.withMerging s c).outcome_resolve d base cache
  have hstacked : ∀ s c, Stacked s ((r.overlay cache).layers d base) (run s c).outcome.resolved := by
    intro s c
    rw [houtcome]
    exact (r.overlay cache).stacked_withMerging s c d base
  have herrors : ∀ s c, (run s c).outcome.errors =
      errorsOf (notesOf r.options.maxDepth ((r.overlay cache).events d base)) ++
        if d.hasParents && c then (run s c).outcome.resolved.check else [] := by
    intro s c
    rw [houtcome]
    exact Resolver.errors_withMerging (r := r.overlay cache) huncapped s c d base
  refine ⟨fun s s' c c' => ⟨?_, ?_, ?_, ?_, ?_⟩, fun s s' => ?_, fun s => ?_, fun h s s' c c' => ?_⟩
  · rw [houtcome, houtcome, Resolver.ancestors_withMerging, Resolver.ancestors_withMerging]
  · exact (r.fetched_withMerging s c d base cache).2.trans
      (r.fetched_withMerging s' c' d base cache).2.symm
  · exact (r.fetched_withMerging s c d base cache).1.trans
      (r.fetched_withMerging s' c' d base cache).1.symm
  · rw [houtcome, houtcome, Resolver.warnings_withMerging, Resolver.warnings_withMerging]
  · exact (hstacked s c).withoutEntities_eq (hstacked s' c')
  · simp only [herrors, Bool.and_false, Bool.false_eq_true, ↓reduceIte]
  · have hresolved : (run s true).outcome.resolved = (run s false).outcome.resolved := by
      rw [houtcome, houtcome]
      exact (r.overlay cache).resolved_withMerging s true false d base
    refine ⟨hresolved, ?_⟩
    simp only [herrors, Bool.and_true, Bool.and_false, Bool.false_eq_true, ↓reduceIte,
      List.append_nil]
  · exact (hstacked s c).eq_of_conflictless (hstacked s' c') h

/-- 根は `b` と読み込めない `x` とを親とし、`b` は `c` を親とする系譜。 -/
def Resolver.forked : Resolver where
  load := Store.load { documents := ⟨[
    ("b", { parents := ["c"], businessRules := [{ id := "y" }] }),
    ("c", { businessRules := [{ id := "z" }], workflowSteps := [{ id := "t" }] })]⟩ }
  addressing := ⟨id, fun reference _ => .ok reference⟩

theorem traversal_ignores_merging_forked :
    let root : Document := {
      parents := ["x", "b"]
      workflowSteps := [{ id := "s", dependsOn := ["t", "u"] }] }
    let run (strategy : Strategy) (check : Bool) :=
      (Resolver.forked.withMerging strategy check).resolve root "a" none
    Resolver.forked.options.maxErrors = none ∧
      Conflictless ((Resolver.forked.overlay none).layers root "a") ∧
      (run .append true).outcome.errors = (run .merge false).outcome.errors ++ [missing "s" "u"] ∧
      (run .append true).outcome.resolved = (run .override false).outcome.resolved := by
  intro root run
  have hconflictless : Conflictless ((Resolver.forked.overlay none).layers root "a") := by
    intro kind
    cases kind <;> decide +kernel
  obtain ⟨-, hbefore, hafter, hresolved⟩ := traversal_ignores_merging .forked root "a" none rfl
  refine ⟨rfl, hconflictless, ?_, hresolved hconflictless .append .override true false⟩
  have hcheck : (if root.hasParents then (run .append true).outcome.resolved.check else []) =
      [missing "s" "u"] := by decide +kernel
  rw [← hcheck, hbefore .merge .append]
  exact (hafter .append).2

end SpecLineage
