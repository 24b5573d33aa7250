import SpecLineage.Lineage.Store
import SpecLineage.Proofs.Consistency
import SpecLineage.Proofs.Lineage.Accounting
import SpecLineage.Proofs.Lineage.Stacking

/-!
# 重ねた文書の依存

どう重ねても、識別子は失われず、依存は新しく生まれない。置き換えないかぎり、依存も失われない。だから、行き先のない依存として
挙がるのは、重ねた文書のどれかにあり、どの文書にも行き先のない依存だけである。
-/

namespace SpecLineage

/-! ## 段を置く -/

variable {strategy : Strategy} {p : String × String}

theorem mem_dependencies_append {xs ys : List WorkflowStep} :
    p ∈ dependencies (xs ++ ys) ↔ p ∈ dependencies xs ∨ p ∈ dependencies ys := by
  rw [dependencies, List.flatMap_append, List.mem_append]
  rfl

theorem mem_dependencies_cons {x : WorkflowStep} {xs : List WorkflowStep} :
    p ∈ dependencies (x :: xs) ↔ p ∈ dependencies [x] ∨ p ∈ dependencies xs := by
  rw [← List.singleton_append, mem_dependencies_append]

/-- 項目ごとに重ねた段は、両方の依存を持つ。 -/
theorem mem_dependencies_combine {x e : WorkflowStep} (h : Entity.id x = Entity.id e) :
    p ∈ dependencies [Combine.combine x e] ↔ p ∈ dependencies [x] ∨ p ∈ dependencies [e] := by
  have hid : x.id = e.id := h
  simp only [dependencies, List.flatMap_singleton, Combine.combine, List.map_append, List.mem_append,
    hid]

theorem mem_dependencies_of_place {es : List WorkflowStep} {e : WorkflowStep}
    (h : p ∈ dependencies (place strategy es e)) : p ∈ dependencies es ∨ p ∈ dependencies [e] := by
  by_cases hs : strategy = .append
  · subst hs
    rwa [place_append, mem_dependencies_append] at h
  · induction es with
    | nil => exact Or.inr h
    | cons x es ih =>
        rw [mem_dependencies_cons (x := x)]
        by_cases hx : Entity.id x = Entity.id e
        · rw [place_cons_of_eq hs hx, mem_dependencies_cons] at h
          rcases h with h | h
          · cases strategy with
            | override => exact Or.inr h
            | merge => exact ((mem_dependencies_combine hx).mp h).imp_left Or.inl
            | append => exact absurd rfl hs
          · exact Or.inl (Or.inr h)
        · rw [place_cons_of_ne hx, mem_dependencies_cons] at h
          rcases h with h | h
          · exact Or.inl (Or.inl h)
          · exact (ih h).imp_left Or.inr

/-- 置き換えないかぎり、前の依存も新しい依存も残る。 -/
theorem mem_dependencies_place (hs : strategy ≠ .override) {es : List WorkflowStep} {e : WorkflowStep}
    (h : p ∈ dependencies es ∨ p ∈ dependencies [e]) : p ∈ dependencies (place strategy es e) := by
  cases strategy with
  | override => exact absurd rfl hs
  | append => rwa [place_append, mem_dependencies_append]
  | merge =>
      induction es with
      | nil => exact h.resolve_left List.not_mem_nil
      | cons x es ih =>
          rw [mem_dependencies_cons, or_assoc] at h
          by_cases hx : Entity.id x = Entity.id e
          · rw [place_cons_of_eq (by decide) hx, mem_dependencies_cons]
            rcases h with h | h | h
            · exact Or.inl ((mem_dependencies_combine hx).mpr (Or.inl h))
            · exact Or.inr h
            · exact Or.inl ((mem_dependencies_combine hx).mpr (Or.inr h))
          · rw [place_cons_of_ne hx, mem_dependencies_cons]
            exact h.imp_right ih

/-! ## 並びを重ねる -/

theorem mem_dependencies_of_mergeCollection {base above : List WorkflowStep}
    (h : p ∈ dependencies (mergeCollection strategy base above)) :
    p ∈ dependencies base ∨ p ∈ dependencies above := by
  induction above generalizing base with
  | nil => exact Or.inl h
  | cons e above ih =>
      rw [mem_dependencies_cons]
      rcases ih h with hplace | habove
      · exact (mem_dependencies_of_place hplace).imp_right Or.inl
      · exact Or.inr (Or.inr habove)

theorem mem_dependencies_mergeCollection (hs : strategy ≠ .override) {base above : List WorkflowStep}
    (h : p ∈ dependencies base ∨ p ∈ dependencies above) :
    p ∈ dependencies (mergeCollection strategy base above) := by
  induction above generalizing base with
  | nil => exact h.resolve_right List.not_mem_nil
  | cons e above ih =>
      rw [mem_dependencies_cons, ← or_assoc] at h
      exact ih (h.imp_left (mem_dependencies_place hs))

/-! ## 文書を積み重ねる -/

namespace Stacked

variable {layers : List Document} {x : Document}

theorem mem_idsOf (h : Stacked strategy layers x) (kind : EntityKind) {i : String} :
    i ∈ x.idsOf kind ↔ ∃ y ∈ layers, i ∈ y.idsOf kind := by
  induction h with
  | single d => simp
  | merge _ _ habove hbase =>
      rw [Document.mem_idsOf_merge, habove, hbase, or_comm]
      simp only [List.mem_append, or_and_right, exists_or]

theorem exists_dependency (h : Stacked strategy layers x) (hp : p ∈ dependencies x.workflowSteps) :
    ∃ y ∈ layers, p ∈ dependencies y.workflowSteps := by
  induction h with
  | single d => exact ⟨d, List.mem_singleton_self d, hp⟩
  | merge _ _ habove hbase =>
      rcases mem_dependencies_of_mergeCollection hp with hp | hp
      · obtain ⟨y, hy, hp⟩ := hbase hp
        exact ⟨y, List.mem_append_right _ hy, hp⟩
      · obtain ⟨y, hy, hp⟩ := habove hp
        exact ⟨y, List.mem_append_left _ hy, hp⟩

theorem keeps_dependency (h : Stacked strategy layers x) (hs : strategy ≠ .override) {y : Document}
    (hy : y ∈ layers) (hp : p ∈ dependencies y.workflowSteps) : p ∈ dependencies x.workflowSteps := by
  induction h with
  | single d => rwa [← List.mem_singleton.mp hy]
  | merge _ _ habove hbase =>
      refine mem_dependencies_mergeCollection hs ?_
      rcases List.mem_append.mp hy with hy | hy
      · exact Or.inr (habove hy)
      · exact Or.inl (hbase hy)

end Stacked

/-! ## 行き先のない依存 -/

/-- 文書のどれかで段 `step` が `target` に依存し、どの文書にも `target` という段がない。 -/
def Dangles (documents : List Document) (step target : String) : Prop :=
  (∃ x ∈ documents, ∃ s ∈ x.workflowSteps, s.id = step ∧ target ∈ s.dependsOn) ∧
    ∀ x ∈ documents, ∀ s ∈ x.workflowSteps, s.id ≠ target

instance (documents : List Document) (step target : String) :
    Decidable (Dangles documents step target) := inferInstanceAs (Decidable (_ ∧ _))

theorem Stacked.dangles_iff {layers : List Document} {x : Document} (h : Stacked strategy layers x)
    {step target : String} : Dangles layers step target ↔
      (∃ y ∈ layers, (step, target) ∈ dependencies y.workflowSteps) ∧
        target ∉ x.idsOf .workflowStep := by
  rw [h.mem_idsOf, Dangles]
  simp only [mem_dependencies, not_exists, not_and]
  refine and_congr_right fun _ => forall₂_congr fun y _ => ?_
  rw [Document.idsOf, ids, List.mem_map]
  simp only [not_exists, not_and]
  exact Iff.rfl

theorem dangling_dependencies (r : Resolver) (d : Document) (base : String) (cache : Option Cache)
    (hparents : d.hasParents = true) (hcheck : r.options.checkConsistency = true)
    (huncapped : r.options.maxErrors = none) :
    let o := (r.resolve d base cache).outcome
    let layers := (r.overlay cache).layers d base
    (∀ kind i, i ∈ o.resolved.idsOf kind ↔ ∃ x ∈ layers, i ∈ x.idsOf kind) ∧
    (∃ pairs : List (String × String), pairs.Nodup ∧
      o.errors.filter (·.code == .missingDependency) = pairs.map (fun p => missing p.1 p.2) ∧
      (∀ p ∈ pairs, Dangles layers p.1 p.2) ∧
      (r.options.strategy ≠ .override →
        ∀ step target, Dangles layers step target → (step, target) ∈ pairs)) ∧
    ((∀ x ∈ layers, ∀ s ∈ x.workflowSteps, ∀ target ∈ s.dependsOn,
        ∃ y ∈ layers, ∃ t ∈ y.workflowSteps, t.id = target) →
      ∀ e ∈ o.errors, e.code ≠ .missingDependency) := by
  intro o layers
  have hstacked : Stacked r.options.strategy layers o.resolved := r.stacked_resolve d base cache
  have herrors : o.errors.filter (·.code == .missingDependency) =
      missingDependencies o.resolved.workflowSteps :=
    (r.filter_errors_resolve base cache hparents hcheck huncapped rfl).trans
      o.resolved.filter_check_missingDependency
  obtain ⟨pairs, hnodup, hpairs, hmem⟩ := exists_missingDependencies o.resolved.workflowSteps
  have hdangles : ∀ p ∈ pairs, Dangles layers p.1 p.2 := by
    intro p hp
    obtain ⟨hdepends, htarget⟩ := (hmem p).mp hp
    exact hstacked.dangles_iff.mpr ⟨hstacked.exists_dependency hdepends, htarget⟩
  refine ⟨fun kind i => hstacked.mem_idsOf kind,
    ⟨pairs, hnodup, herrors.trans hpairs, hdangles, fun hs step target h => ?_⟩, fun hclosed => ?_⟩
  · obtain ⟨⟨y, hy, hdepends⟩, htarget⟩ := hstacked.dangles_iff.mp h
    exact (hmem _).mpr ⟨hstacked.keeps_dependency hs hy hdepends, htarget⟩
  · -- 行き先がすべてそろっていれば、挙げる組がない。
    intro e he hcode
    have hfound : e ∈ pairs.map (fun p => missing p.1 p.2) := by
      rw [← hpairs, ← herrors]
      exact List.mem_filter.mpr ⟨he, beq_iff_eq.mpr hcode⟩
    obtain ⟨p, hp, -⟩ := List.mem_map.mp hfound
    obtain ⟨⟨x, hx, s, hs, -, htarget⟩, hnone⟩ := hdangles p hp
    obtain ⟨y, hy, t, ht, hid⟩ := hclosed x hx s hs _ htarget
    exact hnone y hy t ht hid

/-- 根が `b` を親とし、どちらの文書も段 `s` を定める系譜。`b` の段は `targets` に依存する。 -/
def Resolver.linked (strategy : Strategy) (targets : List String) : Resolver where
  load := Store.load { documents :=
    ⟨[("b", { workflowSteps := [{ id := "s", dependsOn := targets }, { id := "t" }] })]⟩ }
  addressing := ⟨id, fun reference _ => .ok reference⟩
  options := { strategy }

/-- 項目ごとに重ねれば `b` の依存が残り、置き換えれば消える。行き先がそろっていれば、どちらでも誤りはない。 -/
theorem dangling_dependencies_linked :
    let root : Document := { parents := ["b"], workflowSteps := [{ id := "s", dependsOn := ["t"] }] }
    let errors (strategy : Strategy) (targets : List String) :=
      ((Resolver.linked strategy targets).resolve root "a" none).outcome.errors
    root.hasParents = true ∧
      (∀ strategy targets, (Resolver.linked strategy targets).options.checkConsistency = true ∧
        (Resolver.linked strategy targets).options.maxErrors = none) ∧
      missing "s" "u" ∈ errors .merge ["u", "t", "u"] ∧
      errors .override ["u", "t", "u"] = [] ∧
      ∀ e ∈ errors .merge ["t"], e.code ≠ .missingDependency := by
  intro root errors
  have hdangles : Dangles (((Resolver.linked .merge ["u", "t", "u"]).overlay none).layers root "a")
      "s" "u" := by decide +kernel
  have hclosed : ∀ x ∈ ((Resolver.linked .merge ["t"]).overlay none).layers root "a",
      ∀ s ∈ x.workflowSteps, ∀ target ∈ s.dependsOn,
        ∃ y ∈ ((Resolver.linked .merge ["t"]).overlay none).layers root "a",
          ∃ t ∈ y.workflowSteps, t.id = target := by decide +kernel
  obtain ⟨-, ⟨pairs, -, hpairs, -, hall⟩, -⟩ :=
    dangling_dependencies (.linked .merge ["u", "t", "u"]) root "a" none rfl rfl rfl
  obtain ⟨-, -, hquiet⟩ := dangling_dependencies (.linked .merge ["t"]) root "a" none rfl rfl rfl
  have hmissing : missing "s" "u" ∈ pairs.map fun p => missing p.1 p.2 :=
    List.mem_map.mpr ⟨("s", "u"), hall (by decide) "s" "u" hdangles, rfl⟩
  rw [← hpairs] at hmissing
  exact ⟨rfl, fun _ _ => ⟨rfl, rfl⟩, List.mem_of_mem_filter hmissing, by decide +kernel,
    hquiet hclosed⟩

end SpecLineage
