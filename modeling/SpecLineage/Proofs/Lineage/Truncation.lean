import SpecLineage.Proofs.Lineage.Agreement

/-!
# 誤りの数の上限

誤りの数の上限は、系譜のたどりかたに関わらない。上限を換えた二つの解決は、同じ跡を残し、同じ診断を見つける。違うのは、
見つけた誤りを初めから幾つまで書き留めるかだけである。
-/

namespace SpecLineage

/-! ## 控えの上限 -/

/-- 書き留める誤りの数の上限を換えた控え。 -/
def Session.withMaxErrors (s : Session) (maxErrors : Option Nat) : Session := { s with maxErrors }

theorem Session.aside_withMaxErrors (maxErrors : Option Nat) : Aside (·.withMaxErrors maxErrors) :=
  ⟨fun _ _ => rfl, fun _ => rfl, fun _ _ _ => rfl⟩

theorem capped_some (cap : Nat) (es : List Diagnostic) :
    capped (some cap) es = es.take (min cap es.length) := by
  rw [capped, List.take_eq_take_min]

theorem capped_eq_nil_iff {limit : Option Nat} {es : List Diagnostic} :
    capped limit es = [] ↔ limit = some 0 ∨ es = [] := by
  cases limit with
  | none => simp
  | some cap => simp [capped, List.take_eq_nil_iff]

namespace Resolver

/-- 書き留める誤りの数の上限を換えた解決。 -/
def withMaxErrors (r : Resolver) (maxErrors : Option Nat) : Resolver :=
  { r with options := { r.options with maxErrors } }

variable {r : Resolver}

/-! ## 跡と診断 -/

theorem events_withMaxErrors (r : Resolver) (limit : Option Nat) (d : Document) (base : String) :
    (r.withMaxErrors limit).events d base = r.events d base ∧
      (r.withMaxErrors limit).resolved d base = r.resolved d base := by
  have hstrategy : (r.withMaxErrors limit).options.strategy = r.options.strategy := rfl
  exact trail_congr (P := fun _ => True) hstrategy (fun _ _ _ _ _ _ => trivial) (fun _ _ _ _ => rfl)
    (r.options.maxDepth + 1) (r.root d base) trivial

theorem findings_withMaxErrors (r : Resolver) (limit : Option Nat) (d : Document) (base : String) :
    (r.withMaxErrors limit).findings d base = r.findings d base := by
  obtain ⟨hevents, hresolved⟩ := r.events_withMaxErrors limit d base
  rw [findings, findings, hevents, hresolved]
  rfl

theorem plain_withMaxErrors (h : r.options.maxErrors = none) (limit : Option Nat) (d : Document)
    (base : String) : (r.withMaxErrors limit).plain d base =
      { r.plain d base with
        errors := capped limit (r.plain d base).errors
        suppressed := (r.plain d base).errors.length -
          (capped limit (r.plain d base).errors).length } := by
  obtain ⟨hevents, hresolved⟩ := r.events_withMaxErrors limit d base
  rw [(plain_of_uncapped h d base).1]
  simp only [plain, visits, r.findings_withMaxErrors limit d base, hevents, hresolved]
  rfl

/-! ## 蓄えと読み込み -/

theorem fetchedWalk_withMaxErrors (r : Resolver) (limit : Option Nat) (d : Document) (base : String)
    (cache : Option Cache) : (r.withMaxErrors limit).fetchedWalk d base cache =
      (r.fetchedWalk d base cache).onSession (·.withMaxErrors limit) := by
  have hevents : ((r.withMaxErrors limit).overlay cache).events d base =
      (r.overlay cache).events d base := ((r.overlay cache).events_withMaxErrors limit d base).1
  rw [fetchedWalk, fetchedWalk, hevents]
  exact Walk.fetchAll_onSession (Session.aside_withMaxErrors limit) r.load
    (r.entered (r.addressing.normalize base) cache) _

theorem fetched_withMaxErrors (r : Resolver) (limit : Option Nat) (d : Document) (base : String)
    (cache : Option Cache) :
    ((r.withMaxErrors limit).resolve d base cache).cache = (r.resolve d base cache).cache ∧
      ((r.withMaxErrors limit).resolve d base cache).requests =
        (r.resolve d base cache).requests := by
  have hlimited := (r.withMaxErrors limit).fetched_resolve d base cache
  rw [fetchedWalk_withMaxErrors] at hlimited
  have hfree := r.fetched_resolve d base cache
  exact ⟨hlimited.1.trans hfree.1.symm, hlimited.2.trans hfree.2.symm⟩

/-! ## 解決の結果 -/

/-- 上限のない解決と上限のある解決とは、書き留めた誤りと、書き留めなかった誤りの数のほかは等しい。 -/
theorem resolve_withMaxErrors (h : r.options.maxErrors = none) (limit : Option Nat) (d : Document)
    (base : String) (cache : Option Cache) :
    let free := r.resolve d base cache
    (r.withMaxErrors limit).resolve d base cache =
      { free with outcome := { free.outcome with
          errors := capped limit free.outcome.errors
          suppressed := free.outcome.errors.length -
            (capped limit free.outcome.errors).length } } := by
  intro free
  obtain ⟨hcache, hrequests⟩ := r.fetched_withMaxErrors limit d base cache
  have hfree : free.outcome = (r.overlay cache).plain d base := r.outcome_resolve d base cache
  have houtcome := ((r.withMaxErrors limit).outcome_resolve d base cache).trans
    (plain_withMaxErrors (r := r.overlay cache) h limit d base)
  rw [← hfree] at houtcome
  rw [← hcache, ← hrequests, ← houtcome]

theorem valid_resolve (h : r.options.maxErrors = none) (d : Document) (base : String)
    (cache : Option Cache) : (r.resolve d base cache).outcome.valid =
      (r.resolve d base cache).outcome.errors.isEmpty := by
  rw [r.outcome_resolve, (plain_of_uncapped (r := r.overlay cache) h d base).1]
  rfl

end Resolver

/-- 誤りの数の上限は、書き留める誤りを初めから `cap` 個までに切り、残りを数えるだけである。誤りがあるのに一つも
書き留めないのは、上限が零のときに限る。 -/
theorem error_limit_truncates (r : Resolver) (d : Document) (base : String) (cache : Option Cache) :
    let run (limit : Option Nat) := (r.withMaxErrors limit).resolve d base cache
    let free := run none
    let m := free.outcome.errors.length
    (∀ cap, run (some cap) =
      { free with outcome := { free.outcome with
          errors := free.outcome.errors.take (min cap m)
          suppressed := m - min cap m } }) ∧
    ∀ limit, (run limit).outcome.valid = false ∧ (run limit).outcome.errors = [] ↔
      limit = some 0 ∧ 0 < m := by
  intro run free m
  -- どの上限の解決も、上限のない解決と比べる。
  have hrun : ∀ limit, run limit =
      { free with outcome := { free.outcome with
          errors := capped limit free.outcome.errors
          suppressed := m - (capped limit free.outcome.errors).length } } :=
    fun limit => Resolver.resolve_withMaxErrors (r := r.withMaxErrors none) rfl limit d base cache
  refine ⟨fun cap => ?_, fun limit => ?_⟩
  · have hlength : (capped (some cap) free.outcome.errors).length = min cap m := List.length_take
    rw [hrun, hlength, capped_some]
  · have hvalid : free.outcome.valid = free.outcome.errors.isEmpty :=
      Resolver.valid_resolve (r := r.withMaxErrors none) rfl d base cache
    have hsome : free.outcome.valid = false ↔ 0 < m := by
      rw [hvalid, List.isEmpty_eq_false_iff, List.length_pos_iff]
    rw [hrun, hsome, capped_eq_nil_iff]
    constructor
    · rintro ⟨hpos, hzero | hnil⟩
      · exact ⟨hzero, hpos⟩
      · exact absurd hnil (List.length_pos_iff.mp hpos)
    · exact fun ⟨hzero, hpos⟩ => ⟨hpos, Or.inl hzero⟩

example :
    let r : Resolver := {
      load := fun l => .error (.notFound l)
      addressing := ⟨id, fun reference _ => .ok reference⟩
      options := { maxErrors := some 0 } }
    let o := (r.resolve { parents := ["b", "c"] } "a").outcome
    (o.valid, o.errors, o.suppressed) = (false, [], 2) := by decide +kernel

end SpecLineage
