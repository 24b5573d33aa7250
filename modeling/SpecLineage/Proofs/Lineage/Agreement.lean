import SpecLineage.Proofs.Lineage.Findings
import SpecLineage.Proofs.Lineage.Simulation

/-!
# 設定の違う解決の一致

深さの上限と循環の扱いだけが違う二つの解決は、参照の行方が同じなら同じ跡を残し、同じ結果になる。深さの上限を
上げても、もとの上限で深さが越えなければ、跡は変わらない。
-/

namespace SpecLineage

namespace Resolver

/-- 深さの上限を換えた解決。 -/
def withMaxDepth (r : Resolver) (maxDepth : Nat) : Resolver :=
  { r with options := { r.options with maxDepth } }

/-- 循環の扱いを換えた解決。 -/
def withAllowCircular (r : Resolver) (allowCircular : Bool) : Resolver :=
  { r with options := { r.options with allowCircular } }

/-- 深さの上限と循環の扱いのほかは同じ解決。 -/
structure Alike (r' r : Resolver) : Prop where
  load : r'.load = r.load
  addressing : r'.addressing = r.addressing
  strategy : r'.options.strategy = r.options.strategy
  checkConsistency : r'.options.checkConsistency = r.options.checkConsistency
  maxErrors : r'.options.maxErrors = r.options.maxErrors

theorem Alike.symm {r r' : Resolver} (h : Alike r' r) : Alike r r' :=
  ⟨h.load.symm, h.addressing.symm, h.strategy.symm, h.checkConsistency.symm, h.maxErrors.symm⟩

theorem alike_withMaxDepth (r : Resolver) (maxDepth : Nat) : Alike (r.withMaxDepth maxDepth) r :=
  ⟨rfl, rfl, rfl, rfl, rfl⟩

theorem alike_withAllowCircular (r : Resolver) (allowCircular : Bool) :
    Alike (r.withAllowCircular allowCircular) r := ⟨rfl, rfl, rfl, rfl, rfl⟩

variable {r r' : Resolver} {v : Visit} {reference : String}

/-! ## 参照を一つたどる -/

theorem branch_congr {sub sub' : Visit → List Event}
    (hfate : r'.fate v reference = r.fate v reference)
    (hsub : ∀ parent, (r.fate v reference).next? v = some parent → sub' parent = sub parent) :
    r'.branch sub' v reference = r.branch sub v reference := by
  rw [branch, branch, hfate]
  cases hnext : (r.fate v reference).next? v with
  | none => rfl
  | some parent => exact congrArg (_ :: ·) (hsub parent hnext)

theorem foldParent_congr {sub sub' : Visit → Document}
    (h : r'.options.strategy = r.options.strategy)
    (hfate : r'.fate v reference = r.fate v reference)
    (hsub : ∀ parent, (r.fate v reference).next? v = some parent → sub' parent = sub parent)
    (result : Document) :
    r'.foldParent sub' v result reference = r.foldParent sub v result reference := by
  rw [foldParent, foldParent, hfate, h]
  cases hnext : (r.fate v reference).next? v with
  | none => rfl
  | some parent => exact congrArg (Document.merge r.options.strategy · result) (hsub parent hnext)

/-! ## 系譜をたどる -/

/-- 参照の行方が同じなら、跡も解いた文書も同じである。 -/
theorem trail_congr {P : Visit → Prop} (h : r'.options.strategy = r.options.strategy)
    (step : ∀ v reference parent, P v → reference ∈ v.document.parents →
      (r.fate v reference).next? v = some parent → P parent)
    (hfate : ∀ v, P v → ∀ reference ∈ v.document.parents,
      r'.fate v reference = r.fate v reference) (left : Nat) :
    ∀ v, P v → r'.trail left v = r.trail left v ∧ r'.compose left v = r.compose left v := by
  induction left with
  | zero => exact fun v _ => ⟨rfl, rfl⟩
  | succ left ih =>
      intro v hv
      constructor
      · refine List.flatMap_congr fun reference href => ?_
        exact branch_congr (hfate v hv reference href)
          fun parent hnext => (ih parent (step v reference parent hv href hnext)).1
      · refine List.foldl_ext _ _ _ fun result reference href => ?_
        exact foldParent_congr h (hfate v hv reference href)
          (fun parent hnext => (ih parent (step v reference parent hv href hnext)).2) result

/-- 深さが越えなければ、たどれる段数を増やしても、跡も解いた文書も変わらない。 -/
theorem trail_mono (left : Nat) : ∀ (v : Visit), (∀ e ∈ r.trail left v, e.isOverrun = false) →
    ∀ left', left ≤ left' →
      r.trail left' v = r.trail left v ∧ r.compose left' v = r.compose left v := by
  induction left with
  | zero =>
      -- 段数が尽きていれば、深さが越えている。
      intro v hquiet
      have hover := hquiet (.overran v) (List.mem_singleton_self _)
      cases hover
  | succ left ih =>
      intro v hquiet left' hle
      obtain ⟨left', rfl⟩ : ∃ n, left' = n + 1 := ⟨left' - 1, by omega⟩
      have hparent : ∀ reference ∈ v.document.parents, ∀ parent,
          (r.fate v reference).next? v = some parent →
            r.trail left' parent = r.trail left parent ∧
              r.compose left' parent = r.compose left parent := by
        intro reference href parent hnext
        refine ih parent (fun e he => hquiet e ?_) left' (by omega)
        refine List.mem_flatMap.mpr ⟨reference, href, ?_⟩
        rw [branch, hnext]
        exact List.mem_cons_of_mem _ he
      constructor
      · refine List.flatMap_congr fun reference href => ?_
        exact branch_congr rfl fun parent hnext => (hparent reference href parent hnext).1
      · refine List.foldl_ext _ _ _ fun result reference href => ?_
        exact foldParent_congr rfl rfl
          (fun parent hnext => (hparent reference href parent hnext).2) result

/-! ## 解決の一致 -/

variable {d : Document} {base : String} {cache : Option Cache}

theorem resolve_congr (h : Alike r' r)
    (hevents : (r'.overlay cache).events d base = (r.overlay cache).events d base)
    (hresolved : (r'.overlay cache).resolved d base = (r.overlay cache).resolved d base)
    (hnotes : notesOf r'.options.maxDepth ((r.overlay cache).events d base) =
      notesOf r.options.maxDepth ((r.overlay cache).events d base)) :
    r'.resolve d base cache = r.resolve d base cache := by
  cases hd : d.hasParents with
  | false => simp only [resolve, hd, Bool.false_eq_true, ↓reduceIte]
  | true =>
      have hentered : r'.entered (r'.addressing.normalize base) cache =
          r.entered (r.addressing.normalize base) cache := by
        rw [entered, entered, h.addressing, h.maxErrors]
      have hvisit : r'.visit (r'.options.maxDepth + 1) d (r'.addressing.normalize base)
            (r'.entered (r'.addressing.normalize base) cache) =
          r.visit (r.options.maxDepth + 1) d (r.addressing.normalize base)
            (r.entered (r.addressing.normalize base) cache) := by
        rw [visit_root, visit_root, hevents, hresolved, hentered, Walk.after, Walk.after, h.load,
          hnotes]
      rw [entered, entered] at hvisit
      simp only [resolve, hd, ↓reduceIte, hvisit, h.checkConsistency]

theorem resolve_withMaxDepth {maxDepth : Nat} (hle : r.options.maxDepth ≤ maxDepth)
    (hshallow : (r.overlay cache).Shallow d base) :
    (r.withMaxDepth maxDepth).resolve d base cache = r.resolve d base cache := by
  have hquiet := (shallow_iff _ d base).mp hshallow
  obtain ⟨htrail, hcompose⟩ := trail_mono _ ((r.overlay cache).root d base) hquiet (maxDepth + 1)
    (Nat.succ_le_succ hle)
  have hstrategy : ((r.withMaxDepth maxDepth).overlay cache).options.strategy =
      (r.overlay cache).options.strategy := rfl
  obtain ⟨htrail', hcompose'⟩ := trail_congr (P := fun _ => True) hstrategy
    (fun _ _ _ _ _ _ => trivial) (fun _ _ _ _ => rfl) (maxDepth + 1)
    ((r.overlay cache).root d base) trivial
  refine resolve_congr (r.alike_withMaxDepth maxDepth) (htrail'.trans htrail)
    (hcompose'.trans hcompose) ?_
  refine List.flatMap_congr fun e he => ?_
  -- 診断の文に上限が現れるのは、深さが越えたときだけである。
  cases e with
  | followed v reference fate => rfl
  | overran v => exact absurd (hquiet _ he) (by simp [Event.isOverrun])

end Resolver
end SpecLineage
