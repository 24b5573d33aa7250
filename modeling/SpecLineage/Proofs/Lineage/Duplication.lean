import SpecLineage.Lineage.Store
import SpecLineage.Proofs.Consistency
import SpecLineage.Proofs.Lineage.Accounting
import SpecLineage.Proofs.Lineage.Stacking

/-!
# 識別子の重複の収支

つなぐ重ねかたでは、重ねた文書のどれかに前に現れた識別子が再び現れるたびに、重複の誤りが一つ挙がる。突き合わせる
重ねかたでは、いちばん下の文書の中の繰り返しだけが残り、その上に重ねる文書の繰り返しは誤りにならない。
-/

namespace SpecLineage

namespace Stacked

variable {strategy : Strategy} {layers : List Document} {x : Document}

theorem idsOf_append (h : Stacked .append layers x) (kind : EntityKind) :
    x.idsOf kind = layers.reverse.flatMap (·.idsOf kind) := by
  induction h with
  | single d => simp
  | merge _ _ habove hbase =>
      rw [Document.idsOf_merge_append, habove, hbase, List.reverse_append, List.flatMap_append]

theorem exists_bottom (hs : strategy ≠ .append) (h : Stacked strategy layers x) :
    ∃ upper bottom, layers = upper ++ [bottom] ∧ ∀ kind : EntityKind, ∃ added,
      x.idsOf kind = bottom.idsOf kind ++ added ∧ added.Nodup ∧ ∀ i ∈ added, i ∉ bottom.idsOf kind := by
  induction h with
  | single d =>
      refine ⟨[], d, rfl, fun kind => ⟨[], (List.append_nil _).symm, List.nodup_nil, ?_⟩⟩
      exact fun _ hi => absurd hi List.not_mem_nil
  | @merge uppers lower above base _ _ _ hbase =>
      obtain ⟨upper, bottom, rfl, hids⟩ := hbase
      refine ⟨uppers ++ upper, bottom, (List.append_assoc ..).symm, fun kind => ?_⟩
      obtain ⟨lower, hlower, hnodup, hold⟩ := hids kind
      obtain ⟨added, hmerge, hadded, hnew⟩ := Document.exists_idsOf_merge hs base above kind
      rw [hlower] at hmerge hnew
      refine ⟨lower ++ added, hmerge.trans (List.append_assoc ..), ?_, ?_⟩
      · refine hnodup.append hadded fun i hi hi' => ?_
        exact hnew i hi' (List.mem_append_right _ hi)
      · rw [List.forall_mem_append]
        exact ⟨hold, fun i hi hbottom => hnew i hi (List.mem_append_left _ hbottom)⟩

end Stacked

/-- 重複の誤りの数。つなぐ重ねかたでは、重ねた文書の識別子の数と異なる識別子の数との差であり、突き合わせる重ねかたでは、
いちばん下の文書の中で識別子が再び現れる数である。 -/
theorem duplicate_accounting (r : Resolver) (d : Document) (base : String) (cache : Option Cache)
    (hparents : d.hasParents = true) (hcheck : r.options.checkConsistency = true)
    (huncapped : r.options.maxErrors = none) :
    let o := (r.resolve d base cache).outcome
    let layers := (r.overlay cache).layers d base
    let duplicates (kind : EntityKind) := o.errors.countP (·.code == .duplicateId kind)
    (r.options.strategy = .append → ∀ kind,
      duplicates kind + (layers.flatMap (·.idsOf kind)).toFinset.card =
        (layers.flatMap (·.idsOf kind)).length) ∧
    (r.options.strategy ≠ .append → ∃ upper bottom, layers = upper ++ [bottom] ∧ ∀ kind,
      duplicates kind = recurrences (bottom.idsOf kind) ∧
      (∃ added, o.resolved.idsOf kind = bottom.idsOf kind ++ added ∧ added.Nodup ∧
        ∀ i ∈ added, i ∉ bottom.idsOf kind) ∧
      ((bottom.idsOf kind).Nodup → (o.resolved.idsOf kind).Nodup)) := by
  intro o layers duplicates
  have hstacked : Stacked r.options.strategy layers o.resolved := r.stacked_resolve d base cache
  have hcount : ∀ kind, duplicates kind = recurrences (o.resolved.idsOf kind) := by
    intro kind
    have hcode : (DiagnosticCode.duplicateId kind).ofWalk = false := rfl
    have herrors := r.filter_errors_resolve base cache hparents hcheck huncapped hcode
    rw [← Document.countP_check_duplicateId, List.countP_eq_length_filter, ← herrors,
      ← List.countP_eq_length_filter]
  refine ⟨fun hs kind => ?_, fun hs => ?_⟩
  · rw [hs] at hstacked
    have hperm : (layers.reverse.flatMap (·.idsOf kind)).Perm (layers.flatMap (·.idsOf kind)) :=
      (List.reverse_perm layers).flatMap_right _
    rw [hcount, ← hperm.length_eq, ← List.toFinset_eq_of_perm _ _ hperm,
      ← hstacked.idsOf_append kind]
    exact recurrences_add_card _
  · obtain ⟨upper, bottom, hlayers, hids⟩ := hstacked.exists_bottom hs
    refine ⟨upper, bottom, hlayers, fun kind => ?_⟩
    obtain ⟨added, hresolved, hnodup, hnew⟩ := hids kind
    refine ⟨?_, ⟨added, hresolved, hnodup, hnew⟩, fun hbottom => ?_⟩
    · rw [hcount, hresolved, recurrences_append_of_fresh _ hnodup hnew]
    · rw [hresolved]
      exact hbottom.append hnodup fun i hi hi' => hnew i hi' hi

/-- 根が `b` を親とし、どちらの文書も識別子を繰り返す系譜。 -/
def Resolver.stuttering (strategy : Strategy) : Resolver where
  load := Store.load { documents :=
    ⟨[("b", { businessRules := [{ id := "y" }, { id := "x" }, { id := "y" }] })]⟩ }
  addressing := ⟨id, fun reference _ => .ok reference⟩
  options := { strategy }

theorem duplicate_accounting_stuttering :
    let root : Document :=
      { parents := ["b"], businessRules := [{ id := "x" }, { id := "z" }, { id := "z" }] }
    let duplicates (strategy : Strategy) :=
      ((Resolver.stuttering strategy).resolve root "a" none).outcome.errors.countP
        (·.code == .duplicateId .businessRule)
    root.hasParents = true ∧
      (∀ strategy, (Resolver.stuttering strategy).options.checkConsistency = true ∧
        (Resolver.stuttering strategy).options.maxErrors = none) ∧
      duplicates .merge = 1 ∧ duplicates .override = 1 ∧ duplicates .append = 3 := by
  intro root duplicates
  let parent : Document := { businessRules := [{ id := "y" }, { id := "x" }, { id := "y" }] }
  have hlayers : ∀ strategy ∈ Strategy.all,
      ((Resolver.stuttering strategy).overlay none).layers root "a" = [root] ++ [parent] := by
    decide +kernel
  have hmatched : ∀ strategy ∈ Strategy.all, strategy ≠ .append → duplicates strategy = 1 := by
    intro strategy hmem hs
    obtain ⟨-, hmatched⟩ := duplicate_accounting (.stuttering strategy) root "a" none rfl rfl rfl
    obtain ⟨upper, bottom, hbottom, hkind⟩ := hmatched hs
    rw [hlayers strategy hmem] at hbottom
    obtain ⟨-, hbottom⟩ := List.append_inj' hbottom rfl
    obtain rfl := List.singleton_inj.mp hbottom
    exact (hkind .businessRule).1
  have happended : duplicates .append + 3 = 6 := by
    obtain ⟨happended, -⟩ := duplicate_accounting (.stuttering .append) root "a" none rfl rfl rfl
    have hbalance := happended rfl .businessRule
    rw [hlayers .append (by decide)] at hbalance
    exact hbalance
  exact ⟨rfl, fun _ => ⟨rfl, rfl⟩, hmatched .merge (by decide) (by decide),
    hmatched .override (by decide) (by decide), Nat.add_right_cancel happended⟩

end SpecLineage
