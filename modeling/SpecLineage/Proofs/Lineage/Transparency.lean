import SpecLineage.Proofs.Lineage.Simulation

/-!
# 蓄えは結果を変えない

蓄えを使って解いた結果は、蓄えを先に見る読み込みで、文書をたどるたびに読み込んで解いた結果と等しい。解いた後の
蓄えは、もとの蓄えに、読み込めた文書を加えたものであり、蓄えを先に見る読み込みは変わらない。だから、一つの蓄えを
分けあって幾つ解いても、結果はそれぞれを一つだけ解いたときと等しい。
-/

namespace SpecLineage

/-- 系譜を解く一つの頼み。読み込みと蓄えは含まない。 -/
structure Query where
  addressing : Addressing := .path
  options : Options := {}
  document : Document
  base : String

namespace Query

def resolver (q : Query) (load : Loader) : Resolver := ⟨load, q.addressing, q.options⟩

/-- 頼みを蓄え `cache` のもとで解く。 -/
def resolve (q : Query) (load : Loader) (cache : Option Cache) : Resolution :=
  (q.resolver load).resolve q.document q.base cache

/-- 頼みを、控えも蓄えも使わずに解く。 -/
def plain (q : Query) (load : Loader) : Outcome := (q.resolver load).plain q.document q.base

/-- 一つの蓄えを分けあって、頼みを順に解く。 -/
def resolveAll (load : Loader) : List Query → Option Cache → List Outcome × Option Cache
  | [], cache => ([], cache)
  | q :: qs, cache =>
      let first := q.resolve load cache
      let (outcomes, last) := resolveAll load qs first.cache
      (first.outcome :: outcomes, last)

theorem outcome_resolve (q : Query) (load : Loader) (cache : Option Cache) :
    (q.resolve load cache).outcome = q.plain (load.overlay cache) :=
  Resolver.outcome_resolve (q.resolver load) q.document q.base cache

/-- 解いた後の蓄えは、もとの蓄えに、この解決で読み込めた文書を加えたものである。 -/
theorem shelf_resolve (q : Query) (load : Loader) (c : Cache) :
    ∃ c', (q.resolve load (some c)).cache = some c' ∧ ∀ l, c'.shelf.get? l =
      (c.shelf.get? l).or
        (if l ∈ (q.resolve load (some c)).requests then (load l).toOption else none) := by
  obtain ⟨w, hledger, hcache, hrequests⟩ :=
    Resolver.ledger_resolve (q.resolver load) q.document q.base (some c)
  obtain ⟨c', hc', hget⟩ := hledger.shelf c rfl
  refine ⟨c', hcache.trans hc', fun l => ?_⟩
  rw [resolve, hrequests]
  exact hget l

theorem overlay_resolve (q : Query) (load : Loader) (cache : Option Cache) :
    load.overlay (q.resolve load cache).cache = load.overlay cache := by
  obtain ⟨w, hledger, hcache, -⟩ :=
    Resolver.ledger_resolve (q.resolver load) q.document q.base cache
  rw [resolve, hcache]
  cases hc : cache with
  | none => rw [hledger.cache_none hc]
  | some c =>
      obtain ⟨c', hc', hget⟩ := hledger.shelf c hc
      funext l
      simp only [Loader.overlay, hc', Option.bind_some, hget l]
      cases hold : c.shelf.get? l with
      | some d => rfl
      | none =>
          have hload : (q.resolver load).load l = load l := rfl
          rw [hload, Option.none_or]
          by_cases hl : l ∈ w.requests
          · rw [if_pos hl]
            cases load l <;> rfl
          · rw [if_neg hl]

theorem overlay_resolveAll (load : Loader) (qs : List Query) (cache : Option Cache) :
    load.overlay (resolveAll load qs cache).2 = load.overlay cache := by
  induction qs generalizing cache with
  | nil => rfl
  | cons q qs ih => exact (ih _).trans (q.overlay_resolve load cache)

theorem resolveAll_fst (load : Loader) (qs : List Query) (cache : Option Cache) :
    (resolveAll load qs cache).1 = qs.map fun q => q.plain (load.overlay cache) := by
  induction qs generalizing cache with
  | nil => rfl
  | cons q qs ih =>
      have htail := ih (q.resolve load cache).cache
      rw [q.overlay_resolve load cache] at htail
      rw [List.map_cons, ← htail, ← q.outcome_resolve load cache]
      rfl

end Query

/-- 控えと蓄えは結果を変えず、蓄えには読み込めた文書だけが加わる。 -/
theorem resolve_transparent (load : Loader) :
    (∀ (q : Query) (cache : Option Cache),
      (q.resolve load cache).outcome = q.plain (load.overlay cache)) ∧
    (∀ (q : Query) (c : Cache), ∃ c', (q.resolve load (some c)).cache = some c' ∧
      (∀ l, c'.shelf.get? l = (c.shelf.get? l).or
        (if l ∈ (q.resolve load (some c)).requests then (load l).toOption else none)) ∧
      load.overlay (some c') = load.overlay (some c)) ∧
    (∀ (qs : List Query) (cache : Option Cache),
      (Query.resolveAll load qs cache).1 = (qs.map fun q => (q.resolve load cache).outcome) ∧
      load.overlay (Query.resolveAll load qs cache).2 = load.overlay cache) := by
  refine ⟨fun q cache => q.outcome_resolve load cache, fun q c => ?_, fun qs cache => ?_⟩
  · obtain ⟨c', hc', hget⟩ := q.shelf_resolve load c
    refine ⟨c', hc', hget, ?_⟩
    rw [← hc']
    exact q.overlay_resolve load (some c)
  · refine ⟨?_, Query.overlay_resolveAll load qs cache⟩
    rw [Query.resolveAll_fst]
    exact List.map_congr_left fun q _ => (q.outcome_resolve load cache).symm

end SpecLineage
