import SpecLineage.Lineage.Store
import SpecLineage.Proofs.Lineage.Accounting
import SpecLineage.Proofs.Lineage.Agreement
import SpecLineage.Proofs.Lineage.Circularity

/-!
# 循環を許す設定

循環を断たずにたどるとき、根から届く輪があれば、輪をまわり続ける枝がかならず深さの上限に達する。だから、許した循環は
黙って通ることがない。輪がなければ、循環を断つ設定と同じ結果になる。
-/

namespace SpecLineage

namespace Resolver

variable {r : Resolver} {d : Document} {base : String}

/-! ## 輪があるとき -/

/-- 根の場所から根の文書を読み込めるなら、輪を断たない解決は、輪をまわって深さの上限に達する。 -/
theorem not_shallow_of_circuit (hallow : r.options.allowCircular = true)
    (hself : r.LoadsRoot (r.root d base)) {l : Location} (hl : r.Reaches (r.root d base) l)
    (hcircuit : Relation.TransGen (r.Extends (r.root d base)) l l) : ¬r.Shallow d base := by
  intro hshallow
  obtain ⟨event, hevent, hstop⟩ := exists_cut_or_overrun hself hl hcircuit
  -- 循環を許す設定では輪を断たないから、深さが越えるほかない。
  have hover := (shallow_iff r d base).mp hshallow event hevent
  have hrejected := (closes_of_arises (arises_events r d base event hevent)).2
  rw [hallow] at hrejected
  have hfollowed : event.isRejected = false := by
    rw [hrejected]
    cases event.followed? <;> rfl
  simp [hover, hfollowed] at hstop

theorem exists_maxInheritanceDepth (h : ¬r.Shallow d base) :
    (∃ e ∈ errorsOf (r.findings d base), e.code = .maxInheritanceDepth) ∧
      (r.plain d base).valid = false := by
  rw [shallow_iff] at h
  push Not at h
  obtain ⟨event, hevent, hover⟩ := h
  have hhas : event.hasCode .maxInheritanceDepth = true := (Bool.not_eq_false _).mp hover
  obtain ⟨x, hx, hcode, herror⟩ := exists_finding_of_hasCode hevent hhas
  have hfound : x ∈ errorsOf (r.findings d base) := List.mem_filter.mpr ⟨hx, herror⟩
  refine ⟨⟨x, hfound, hcode⟩, ?_⟩
  rw [plain, Bool.eq_false_iff]
  intro hvalid
  rw [List.isEmpty_iff.mp hvalid] at hfound
  cases hfound

/-! ## 輪がないとき -/

theorem warnings_of_cut (hcut : r.options.allowCircular = false) (d : Document) (base : String) :
    (r.plain d base).warnings = [] := by
  refine List.filter_eq_nil_iff.mpr fun x hx => ?_
  rcases mem_findings.mp hx with ⟨e, he, hx⟩ | ⟨-, hcheck⟩
  · have hreentry := (closes_of_arises (arises_events r d base e he)).1
    rw [hcut] at hreentry
    have hnone : e.isReentry = false := by
      rw [hreentry]
      cases e.followed? <;> rfl
    have hcode : x.code ≠ .circularInheritanceAllowed := by
      intro hcode
      have hhas := Event.hasCode_of_mem_notes hx
      rw [hcode] at hhas
      exact Bool.false_ne_true (hnone.symm.trans hhas)
    rw [Event.isError_of_mem_notes hx]
    simpa using hcode
  · simp [(of_mem_check hcheck).1]

/-- 輪がなければ、たどっている道へ戻る参照はなく、どちらの設定でも行方は同じである。 -/
theorem fate_withAllowCircular {root v : Visit}
    (hacyclic : ¬∃ l, r.Reaches root l ∧ Relation.TransGen (r.Extends root) l l)
    (hv : (r.withAllowCircular false).Grounded root v) {reference : String}
    (href : reference ∈ v.document.parents) :
    r.fate v reference = (r.withAllowCircular false).fate v reference := by
  cases hr : r.addressing.resolve reference v.location with
  | error fault => simp [fate, withAllowCircular, hr]
  | ok l =>
      have hl : l ∉ v.chain := fun hl => hacyclic (hv.circuit href hr hl).transGen
      have hopen : ∀ allowCircular, ¬(l ∈ v.chain ∧ allowCircular = false) := fun _ h => hl h.1
      rw [fate_of_ok hr, fate_of_ok (r := r.withAllowCircular false) hr, if_neg (hopen _),
        if_neg (hopen _)]
      rfl

theorem resolve_withAllowCircular {cache : Option Cache}
    (hacyclic : ¬∃ l, (r.overlay cache).Reaches (r.root d base) l ∧
      Relation.TransGen ((r.overlay cache).Extends (r.root d base)) l l) :
    r.resolve d base cache = (r.withAllowCircular false).resolve d base cache := by
  have hstrategy : (r.overlay cache).options.strategy =
      ((r.overlay cache).withAllowCircular false).options.strategy := rfl
  -- 断つ設定でたどる道の上では、行方が同じである。
  obtain ⟨htrail, hcompose⟩ := trail_congr
    (P := ((r.overlay cache).withAllowCircular false).Grounded (r.root d base)) hstrategy
    (fun v reference parent hv href hnext => hv.parent rfl href hnext)
    (fun v hv reference href => fate_withAllowCircular hacyclic hv href)
    (r.options.maxDepth + 1) (r.root d base) (grounded_root rfl)
  exact resolve_congr (r.alike_withAllowCircular false).symm htrail hcompose rfl

end Resolver

/-- 循環を許す設定では、根から届く輪があれば、深さが越えたという誤りをかならず見つける。輪がなければ、循環を断つ設定と
同じ結果になり、警告もない。 -/
theorem allowed_circuit_overruns (r : Resolver) (d : Document) (base : String)
    (cache : Option Cache) (hallow : r.options.allowCircular = true)
    (hself : r.load.overlay cache (r.addressing.normalize base) = .ok d) :
    let outcome := (r.resolve d base cache).outcome
    let overlay := r.overlay cache
    let root := r.root d base
    (∀ v ∈ overlay.visits d base, v.depth ≤ r.options.maxDepth + 1) ∧
    ((∃ l, overlay.Reaches root l ∧ Relation.TransGen (overlay.Extends root) l l) →
      outcome.valid = false ∧ ∃ dropped,
        errorsOf (overlay.findings d base) = outcome.errors ++ dropped ∧
        dropped.length = outcome.suppressed ∧
        ∃ e ∈ outcome.errors ++ dropped, e.code = .maxInheritanceDepth) ∧
    ((¬∃ l, overlay.Reaches root l ∧ Relation.TransGen (overlay.Extends root) l l) →
      outcome.warnings = [] ∧
        r.resolve d base cache = (r.withAllowCircular false).resolve d base cache) := by
  intro outcome overlay root
  have houtcome : outcome = overlay.plain d base := r.outcome_resolve d base cache
  refine ⟨fun v hv => Resolver.depth_le_of_mem (r := overlay) hv, ?_, fun hacyclic => ?_⟩
  · rintro ⟨l, hl, hcircuit⟩
    have hdeep := Resolver.not_shallow_of_circuit (r := overlay) hallow (fun _ => hself) hl hcircuit
    obtain ⟨hfound, hvalid⟩ := Resolver.exists_maxInheritanceDepth hdeep
    obtain ⟨dropped, hdropped, hlength⟩ := overlay.exists_dropped d base
    rw [houtcome]
    rw [hdropped] at hfound
    exact ⟨hvalid, dropped, hdropped, hlength, hfound⟩
  · have hresolve := Resolver.resolve_withAllowCircular hacyclic
    refine ⟨?_, hresolve⟩
    have hcut : outcome = ((r.withAllowCircular false).overlay cache).plain d base :=
      (congrArg Resolution.outcome hresolve).trans (Resolver.outcome_resolve _ d base cache)
    rw [hcut]
    exact Resolver.warnings_of_cut rfl d base

/-- 根が `b` を親とし、`b` が参照 `back` を親とする系譜。誤りは数だけを残す。 -/
def Resolver.paired (back : List String) : Resolver where
  load := Store.load { documents := ⟨[("a", { parents := ["b"] }), ("b", { parents := back })]⟩ }
  addressing := ⟨id, fun reference _ => .ok reference⟩
  options := { maxDepth := 2, allowCircular := true, maxErrors := some 0 }

theorem Resolver.paired_extends {l m : Location}
    (h : ((Resolver.paired []).overlay none).Extends
      ((Resolver.paired []).root { parents := ["b"] } "a") l m) : l = "a" ∧ m = "b" := by
  obtain ⟨⟨d, hd, reference, href, hm⟩, -⟩ := h
  have hm : reference = m := Except.ok.inj hm
  subst hm
  by_cases hl : l = "a"
  · have hd : ({ parents := ["b"] } : Document) = d := Option.some.inj ((if_pos hl).symm.trans hd)
    subst hd
    exact ⟨hl, List.mem_singleton.mp href⟩
  · have hd : ((Resolver.paired []).load l).toOption = some d := (if_neg hl).symm.trans hd
    by_cases hb : l = "b"
    · subst hb
      cases hd
      cases href
    · have hnone : (Resolver.paired []).load l = .error (.notFound l) :=
        Store.load_of_notMem (by simp [hl, hb])
      rw [hnone] at hd
      cases hd

theorem Resolver.paired_acyclic {l : Location} :
    ¬Relation.TransGen (((Resolver.paired []).overlay none).Extends
      ((Resolver.paired []).root { parents := ["b"] } "a")) l l := by
  intro hcircuit
  obtain ⟨m, hout, -⟩ := Relation.TransGen.head'_iff.mp hcircuit
  obtain ⟨n, -, hin⟩ := Relation.TransGen.tail'_iff.mp hcircuit
  have hab : ("a" : Location) = "b" := (paired_extends hout).1.symm.trans (paired_extends hin).2
  exact absurd hab (by decide)

theorem allowed_circuit_overruns_paired :
    let root : Document := { parents := ["b"] }
    let cyclic := ((Resolver.paired ["a"]).resolve root "a" none).outcome
    let acyclic := ((Resolver.paired []).resolve root "a" none).outcome
    cyclic.errors = [] ∧ cyclic.valid = false ∧ acyclic.warnings = [] ∧ acyclic.valid = true := by
  intro root cyclic acyclic
  obtain ⟨-, hcyclic, -⟩ := allowed_circuit_overruns (.paired ["a"]) root "a" none rfl rfl
  obtain ⟨-, -, hacyclic⟩ := allowed_circuit_overruns (.paired []) root "a" none rfl rfl
  have hedge : ((Resolver.paired ["a"]).overlay none).Extends
      ((Resolver.paired ["a"]).root root "a") "a" "b" :=
    ⟨⟨root, rfl, "b", List.mem_singleton_self _, rfl⟩, rfl⟩
  have hback : ((Resolver.paired ["a"]).overlay none).Extends
      ((Resolver.paired ["a"]).root root "a") "b" "a" :=
    ⟨⟨{ parents := ["a"] }, rfl, "a", List.mem_singleton_self _, rfl⟩, rfl⟩
  obtain ⟨hvalid, -⟩ := hcyclic ⟨"a", .refl, .tail (.single hedge) hback⟩
  obtain ⟨hwarnings, -⟩ := hacyclic fun ⟨_, _, hcircuit⟩ => Resolver.paired_acyclic hcircuit
  exact ⟨by decide +kernel, hvalid, hwarnings, by decide +kernel⟩

end SpecLineage
