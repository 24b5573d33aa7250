import SpecLineage.Proofs.Lineage.Accounting
import SpecLineage.Proofs.Lineage.Circularity

/-!
# 祖先は根から届く場所である

祖先の列は、重ねた文書の場所を、初めに現れた順に一つずつ並べたものである。循環を断つ設定では根を含まず、深さが
越えなければ、根から届くすべての場所からなる。断った参照の先はたどっている道の上にあり、そこはすでに重ねてある
ので、輪を断っても祖先は失われない。
-/

namespace SpecLineage

namespace Resolver

variable {r : Resolver}

/-! ## 重ねた文書のもと -/

theorem exists_fold_of_mem_visits {P : Visit → Prop}
    (step : ∀ v reference parent, P v → reference ∈ v.document.parents →
      (r.fate v reference).next? v = some parent → P parent) (left : Nat) {v u : Visit} (hv : P v)
    (hu : u ∈ visitsOf (r.trail left v)) : ∃ w reference, P w ∧ reference ∈ w.document.parents ∧
      r.fate w reference = .folded u.location u.document ∧
        (r.fate w reference).next? w = some u := by
  obtain ⟨e, he, heu⟩ := List.mem_filterMap.mp hu
  have harises := arises_of_mem_trail step left v hv e he
  cases e with
  | overran w => cases heu
  | followed w reference fate =>
      obtain ⟨hw, href, rfl⟩ := harises
      refine ⟨w, reference, hw, href, ?_, heu⟩
      cases hfate : r.fate w reference with
      | folded l x =>
          rw [Event.visit?, hfate] at heu
          cases heu
          rfl
      | _ =>
          rw [Event.visit?, hfate] at heu
          cases heu

/-- 重ねた文書までの道の上の場所には、すでに文書を重ねてある。 -/
theorem mem_of_mem_chain (left : Nat) : ∀ v : Visit, ∀ u ∈ visitsOf (r.trail left v),
    ∀ l ∈ u.chain, l ∈ v.chain ∨ l ∈ (visitsOf (r.trail left v)).map Visit.location := by
  induction left with
  | zero =>
      intro v u hu
      cases hu
  | succ left ih =>
      intro v u hu l hl
      rw [visitsOf_trail] at hu ⊢
      obtain ⟨reference, href, hu⟩ := List.mem_flatMap.mp hu
      have hbelow : l ∈ v.chain ∨
          l ∈ (r.below (fun parent => visitsOf (r.trail left parent)) v reference).map
            Visit.location := by
        rw [below] at hu ⊢
        cases hnext : (r.fate v reference).next? v with
        | none =>
            rw [hnext] at hu
            cases hu
        | some parent =>
            rw [hnext] at hu
            have hparent : ∀ m ∈ parent.chain, m ∈ v.chain ∨ m = parent.location := by
              intro m hm
              rwa [Fate.chain_of_next? hnext, List.mem_append, List.mem_singleton] at hm
            rw [List.map_cons, List.mem_cons]
            rcases List.mem_cons.mp hu with rfl | hu
            · exact (hparent l hl).imp_right Or.inl
            · rcases ih parent u hu l hl with hl | hl
              · exact (hparent l hl).imp_right Or.inl
              · exact Or.inr (Or.inr hl)
      refine hbelow.imp_right fun h => ?_
      obtain ⟨w, hw, rfl⟩ := List.mem_map.mp h
      exact List.mem_map_of_mem (List.mem_flatMap.mpr ⟨reference, href, hw⟩)

/-! ## 深さを越えずにたどる場所 -/

variable {d : Document} {base : String}

theorem sourced_of_mem_visits (hself : r.LoadsRoot (r.root d base)) {v : Visit}
    (hv : v ∈ r.root d base :: r.visits d base) : r.Sourced (r.root d base) v := by
  rcases List.mem_cons.mp hv with rfl | hv
  · exact sourced_root
  · obtain ⟨w, reference, hw, -, -, hnext⟩ := exists_fold_of_mem_visits
      (P := r.Sourced (r.root d base)) (fun v reference parent hv _ hnext => hv.parent hself hnext)
      (r.options.maxDepth + 1) sourced_root hv
    exact hw.parent hself hnext

theorem mem_references (hshallow : r.Shallow d base) {v : Visit}
    (hv : v ∈ r.root d base :: r.visits d base) {reference : String}
    (href : reference ∈ v.document.parents) : (v, reference) ∈ r.references d base := by
  refine List.mem_flatMap.mpr ⟨v, ?_, List.mem_map.mpr ⟨reference, href, rfl⟩⟩
  rcases List.mem_cons.mp hv with rfl | hv
  · exact List.mem_cons_self
  · refine List.mem_cons_of_mem _ (List.mem_filter.mpr ⟨hv, ?_⟩)
    exact decide_eq_true (depth_le_of_shallow hshallow hv)

/-- たどった文書の場所は、辺について閉じている。断った参照の先も、たどった文書の場所である。 -/
theorem mem_locations_of_extends (hself : r.LoadsRoot (r.root d base))
    (hshallow : r.Shallow d base) {l m : Location}
    (hl : l ∈ (r.root d base :: r.visits d base).map Visit.location)
    (hedge : r.Extends (r.root d base) l m) :
    m ∈ (r.root d base :: r.visits d base).map Visit.location := by
  obtain ⟨v, hv, rfl⟩ := List.mem_map.mp hl
  obtain ⟨⟨x, hx, reference, href, hr⟩, hm⟩ := hedge
  have hsourced := sourced_of_mem_visits hself hv
  have hdoc : x = v.document := Option.some.inj (hx.symm.trans hsourced.source)
  subst hdoc
  rw [List.map_cons, List.mem_cons]
  rcases hsourced.fate_of_edge hself hr hm with ⟨-, hchain⟩ | ⟨x, hfate⟩
  -- 断った参照の先は、たどっている道の上にある。
  · have hroot : m ∈ (r.root d base).chain → m = (r.root d base).location := by
      simp [Visit.chain, root]
    rcases List.mem_cons.mp hv with rfl | hv
    · exact Or.inl (hroot hchain)
    · exact (mem_of_mem_chain _ (r.root d base) v hv m hchain).imp_left hroot
  · have hevent := followed_mem_events (mem_references hshallow hv href)
    rw [hfate] at hevent
    have hvisit : v.parent m x ∈ r.visits d base := List.mem_filterMap.mpr ⟨_, hevent, rfl⟩
    exact Or.inr (List.mem_map.mpr ⟨_, hvisit, rfl⟩)

theorem mem_locations_of_reaches (hself : r.LoadsRoot (r.root d base))
    (hshallow : r.Shallow d base) {l : Location} (hl : r.Reaches (r.root d base) l) :
    l ∈ (r.root d base :: r.visits d base).map Visit.location := by
  induction hl with
  | refl => exact List.mem_cons_self
  | tail _ hedge ih => exact mem_locations_of_extends hself hshallow ih hedge

/-! ## 循環を断つ設定での祖先 -/

theorem loaded_of_mem_visits (hcut : r.options.allowCircular = false) {v : Visit}
    (hv : v ∈ r.visits d base) : v.location ≠ (r.root d base).location ∧
      r.load v.location = .ok v.document ∧ r.Reaches (r.root d base) v.location := by
  obtain ⟨w, reference, hw, href, hfate, hnext⟩ := exists_fold_of_mem_visits
    (P := r.Grounded (r.root d base))
    (fun v reference parent hv href hnext => hv.parent hcut href hnext)
    (r.options.maxDepth + 1) (grounded_root rfl) hv
  obtain ⟨-, hopen, hload⟩ := hfate ▸ r.fate_spec w reference
  have hgrounded := hw.parent hcut href hnext
  refine ⟨?_, hload, hgrounded.reaches _ (location_mem_chain v)⟩
  intro hroot
  exact hopen ⟨hroot ▸ hw.root_mem, hcut⟩

theorem mem_visits_iff_reaches (hcut : r.options.allowCircular = false)
    (hshallow : r.Shallow d base) (l : Location) :
    l ∈ (r.visits d base).map Visit.location ↔ l ≠ (r.root d base).location ∧
      (∃ x, r.load l = .ok x) ∧ r.Reaches (r.root d base) l := by
  constructor
  · intro hl
    obtain ⟨v, hv, rfl⟩ := List.mem_map.mp hl
    obtain ⟨hne, hload, hreaches⟩ := loaded_of_mem_visits hcut hv
    exact ⟨hne, ⟨v.document, hload⟩, hreaches⟩
  · rintro ⟨hne, -, hreaches⟩
    have hmem := mem_locations_of_reaches (loadsRoot_of_cut hcut) hshallow hreaches
    exact (List.mem_cons.mp hmem).resolve_left hne

end Resolver

/-- 祖先の列は、重ねた文書の場所を初めに現れた順に並べたものである。循環を断つ設定では根を含まず、深さが越えなければ、
根から届く場所をすべて含む。 -/
theorem ancestors_eq_reachable (r : Resolver) (d : Document) (base : String)
    (cache : Option Cache) :
    let ancestors := (r.resolve d base cache).outcome.ancestors
    let overlay := r.overlay cache
    let root := r.root d base
    (ancestors = ((overlay.visits d base).map Visit.location).eraseDups ∧ ancestors.Nodup) ∧
    (r.options.allowCircular = false → root.location ∉ ancestors ∧
      (overlay.Shallow d base → ∀ l, l ∈ ancestors ↔
        l ≠ root.location ∧ (∃ x, overlay.load l = .ok x) ∧ overlay.Reaches root l)) := by
  intro ancestors overlay root
  have hancestors : ancestors = ((overlay.visits d base).map Visit.location).eraseDups :=
    congrArg Outcome.ancestors (r.outcome_resolve d base cache)
  rw [hancestors]
  refine ⟨⟨rfl, List.nodup_eraseDups _⟩, fun hcut => ⟨?_, fun hshallow l => ?_⟩⟩
  · intro hroot
    obtain ⟨v, hv, heq⟩ := List.mem_map.mp (List.mem_eraseDups.mp hroot)
    exact (Resolver.loaded_of_mem_visits (r := overlay) hcut hv).1 heq
  · rw [List.mem_eraseDups]
    exact Resolver.mem_visits_iff_reaches (r := overlay) hcut hshallow l

/-- `b` は `c` を、`c` は `b` と根とを親とし、`x` は読み込めない系譜。 -/
def Resolver.tangled : Resolver where
  load := Store.load
    { documents := ⟨[("b", { parents := ["x", "c"] }), ("c", { parents := ["b", "a"] })]⟩ }
  addressing := ⟨id, fun reference _ => .ok reference⟩

theorem ancestors_eq_reachable_tangled :
    let root : Document := { parents := ["c", "b"] }
    let overlay := Resolver.tangled.overlay none
    Resolver.tangled.options.allowCircular = false ∧ overlay.Shallow root "a" ∧
      (Resolver.tangled.resolve root "a" none).outcome.ancestors = ["c", "b"] ∧
      overlay.Reaches (Resolver.tangled.root root "a") "b" ∧
      ¬((∃ x, overlay.load "x" = .ok x) ∧
        overlay.Reaches (Resolver.tangled.root root "a") "x") := by
  intro root overlay
  have hshallow : overlay.Shallow root "a" := by decide +kernel
  have hancestors : (Resolver.tangled.resolve root "a" none).outcome.ancestors = ["c", "b"] := by
    decide +kernel
  obtain ⟨-, hcut⟩ := ancestors_eq_reachable .tangled root "a" none
  obtain ⟨-, hmem⟩ := hcut rfl
  rw [hancestors] at hmem
  refine ⟨rfl, hshallow, hancestors, ?_, fun hx => ?_⟩
  · exact ((hmem hshallow "b").mp (by decide)).2.2
  · exact absurd ((hmem hshallow "x").mpr ⟨by decide, hx⟩) (by decide)

end SpecLineage
