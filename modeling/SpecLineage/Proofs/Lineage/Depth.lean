import Mathlib.Data.Set.Card
import SpecLineage.Proofs.Lineage.Accounting
import SpecLineage.Proofs.Lineage.Agreement
import SpecLineage.Proofs.Lineage.Moment

/-!
# 深さの上限

深さの上限は、達したときにだけ意味を持つ。循環を断つ設定では、たどっている場所の列に重複がないので、深さは、根の
ほかに読み込める場所の数を越えない。だから、その数より小さくない上限には達することがなく、上限がなくても解決は
終わる。
-/

namespace SpecLineage

namespace Resolver

variable (r : Resolver) (root : Visit)

/-- 根のほかに読み込める場所。 -/
def Loadable : Set Location := {l | l ≠ root.location ∧ ∃ x, r.load l = .ok x}

/-- 文書 `v` の系譜を解くとき、その親 `parent` の系譜を解く。深さの上限によらない。 -/
def Calls (parent v : Visit) : Prop :=
  ∃ reference ∈ v.document.parents, (r.fate v reference).next? v = some parent

variable {r root}

/-! ## 深さの限り -/

theorem Grounded.depth_le {v : Visit} (h : r.Grounded root v) {n : Nat}
    (hn : (r.Loadable root).encard ≤ n) : v.depth ≤ n := by
  -- 道から根を除いた場所は、互いに異なり、どれも読み込める。
  have hlength : (v.chain.erase root.location).length = v.depth := by
    rw [List.length_erase_of_mem h.root_mem, v.chain_length, Nat.add_sub_cancel]
  have hnodup : (v.chain.erase root.location).Nodup := h.nodup.erase root.location
  have hsubset : ((v.chain.erase root.location).toFinset : Set Location) ⊆ r.Loadable root := by
    intro l hl
    obtain ⟨hne, hmem⟩ := h.nodup.mem_erase_iff.mp (List.mem_toFinset.mp hl)
    have hsome := h.isSome_source l hmem
    rw [Resolver.source, if_neg hne] at hsome
    cases hload : r.load l with
    | error fault =>
        rw [hload] at hsome
        cases hsome
    | ok x => exact ⟨hne, x, hload⟩
  have hcard := (Set.encard_le_encard hsubset).trans hn
  rw [Set.encard_coe_eq_coe_finsetCard, List.toFinset_card_of_nodup hnodup, hlength] at hcard
  exact Nat.cast_le.mp hcard

/-- 深さに限りがあるので、親の系譜を解き続けることはできない。 -/
theorem acc_calls (hcut : r.options.allowCircular = false) {n : Nat}
    (hn : (r.Loadable root).encard ≤ n) (room : Nat) :
    ∀ v, r.Grounded root v → n < v.depth + room → Acc r.Calls v := by
  -- 深さの限りまでの残りについての帰納。残りがなければ、親はない。
  induction room with
  | zero =>
      intro v hv hroom
      have hle := hv.depth_le hn
      omega
  | succ room ih =>
      intro v hv hroom
      refine .intro v fun parent hcall => ?_
      obtain ⟨reference, href, hnext⟩ := hcall
      have hdepth : parent.depth = v.depth + 1 := by
        have hchain := congrArg List.length (Fate.chain_of_next? hnext)
        rw [parent.chain_length, List.length_append, v.chain_length,
          List.length_singleton] at hchain
        omega
      exact ih parent (hv.parent hcut href hnext) (by omega)

theorem shallow_of_encard_le (hcut : r.options.allowCircular = false) {d : Document} {base : String}
    (hn : (r.Loadable (r.root d base)).encard ≤ r.options.maxDepth) : r.Shallow d base := by
  rw [shallow_iff]
  intro e he
  cases e with
  | followed v reference fate => rfl
  | overran v =>
      have hv : r.Grounded (r.root d base) v := arises_of_mem_trail
        (fun v reference parent hv href hnext => hv.parent hcut href hnext)
        (r.options.maxDepth + 1) (r.root d base) (grounded_root rfl) _ he
      obtain ⟨-, hdeep⟩ := overran_mem_events.mp he
      have hle := hv.depth_le hn
      omega

theorem Located.depth_le {m : Moment} {cache : Option Cache} (h : r.Located root cache m) {n : Nat}
    (hn : ((r.overlay cache).Loadable root).encard ≤ n) : m.depth ≤ n + 1 := by
  cases h with
  | following hv hhead hs hw hrest => exact Nat.le_succ_of_le (hv.depth_le hn)
  | loading hv hhead hs hw href hr hl => exact Nat.succ_le_succ (hv.depth_le hn)

end Resolver

/-- 深さの上限は、達しなければ結果に関わらない。循環を断つ設定では、たどっている場所の列はいつも重複のない道であり、
上限が読み込める場所の数より小さくなければ、達することがない。 -/
theorem depth_limit (r : Resolver) (d : Document) (base : String) (cache : Option Cache) :
    let overlay := r.overlay cache
    let root := r.root d base
    (∀ maxDepth, r.options.maxDepth ≤ maxDepth → overlay.Shallow d base →
      (r.withMaxDepth maxDepth).resolve d base cache = r.resolve d base cache) ∧
    (d.hasParents = true → ∃ w, r.Passes d base cache
      ⟨0, root.location, .following (r.resolve d base cache).outcome.resolved [], w⟩) ∧
    (r.options.allowCircular = false →
      (∀ moment, r.Passes d base cache moment → overlay.Tracks root moment) ∧
      ∀ n : Nat, (overlay.Loadable root).encard ≤ n →
        (∀ maxDepth, n ≤ maxDepth →
          let deep := r.withMaxDepth maxDepth
          (deep.overlay cache).Shallow d base ∧
          (∀ e ∈ (deep.resolve d base cache).outcome.errors, e.code ≠ .maxInheritanceDepth) ∧
          (∀ moment, deep.Passes d base cache moment → moment.depth ≤ n + 1) ∧
          deep.resolve d base cache = (r.withMaxDepth n).resolve d base cache) ∧
        Acc overlay.Calls root) := by
  intro overlay root
  refine ⟨fun maxDepth hle hshallow => Resolver.resolve_withMaxDepth hle hshallow, fun hd => ?_,
    fun hcut => ?_⟩
  · obtain ⟨w, hend, -⟩ := r.exists_passes_resolved base cache hd
    exact ⟨w, hend⟩
  refine ⟨fun moment h => (Resolver.located_of_passes hcut h).tracks, fun n hn => ⟨?_, ?_⟩⟩
  · have hshallow : ∀ maxDepth, n ≤ maxDepth →
        ((r.withMaxDepth maxDepth).overlay cache).Shallow d base := by
      intro maxDepth hle
      exact Resolver.shallow_of_encard_le (r := (r.withMaxDepth maxDepth).overlay cache) hcut
        (hn.trans (Nat.cast_le.mpr hle))
    intro maxDepth hle deep
    have houtcome := deep.outcome_resolve d base cache
    refine ⟨hshallow maxDepth hle, ?_, fun moment h => ?_, ?_⟩
    · rw [houtcome]
      exact (hshallow maxDepth hle).errors
    · exact (Resolver.located_of_passes (r := deep) hcut h).depth_le hn
    · exact Resolver.resolve_withMaxDepth (r := r.withMaxDepth n) hle (hshallow n (Nat.le_refl n))
  · exact Resolver.acc_calls (r := overlay) hcut hn (n + 1) root (Resolver.grounded_root rfl)
      (Nat.lt_add_left _ (Nat.lt_succ_self n))

theorem depth_limit_ring :
    let r := Resolver.ring.withMaxDepth 2
    let root : Document := { parents := ["b"] }
    let outcome := (r.resolve root "a" none).outcome
    r.options.allowCircular = false ∧ (r.overlay none).Shallow root "a" ∧
      ((r.overlay none).Loadable (r.root root "a")).encard ≤ (2 : Nat) ∧
      (∃ moment, r.Passes root "a" none moment ∧ moment.stack = ["a", "b", "c"] ∧
        moment.stack.Nodup) ∧
      outcome.errors = [circular ["b", "c", "b"]] ∧
      ((r.withMaxDepth 1000000).resolve root "a" none).outcome = outcome ∧
      ((r.withMaxDepth 1000000).overlay none).Shallow root "a" := by
  intro r root outcome
  have hshallow : (r.overlay none).Shallow root "a" := by decide +kernel
  have hloadable : ((r.overlay none).Loadable (r.root root "a")).encard ≤ (2 : Nat) := by
    have hsubset : (r.overlay none).Loadable (r.root root "a") ⊆
        (({"b", "c"} : Finset Location) : Set Location) := by
      rintro l ⟨-, x, hx⟩
      by_contra hl
      simp only [Finset.coe_insert, Finset.coe_singleton, Set.mem_insert_iff,
        Set.mem_singleton_iff, not_or] at hl
      have hnone : Resolver.ring.load l = .error (.notFound l) :=
        Store.load_of_notMem (by simpa using hl)
      exact absurd (hnone.symm.trans hx) (by simp)
    refine (Set.encard_le_encard hsubset).trans ?_
    rw [Set.encard_coe_eq_coe_finsetCard]
    exact Nat.cast_le.mpr (by decide)
  have hroot : r.Passes root "a" none ⟨0, "a", .following root ["b"], r.entered "a" none⟩ :=
    .start rfl
  have hload : r.Passes root "a" none ⟨1, "b", .loading, (r.entered "a" none).enter "b"⟩ :=
    hroot.enter (Nat.zero_le 2) rfl rfl
  obtain ⟨w, hb, hw⟩ : ∃ w, r.Passes root "a" none
      ⟨1, "b", .following { parents := ["c"] } ["c"], w⟩ ∧ w.session.stack = ["a", "b"] :=
    ⟨_, hload.load rfl, rfl⟩
  have hopen : w.session.inProgress "c" = false := by simp [Session.inProgress, hw]
  have hc := hb.enter (m := "c") (Nat.le_succ 1) rfl (by rw [hopen]; rfl)
  rw [hopen] at hc
  have hstack : Moment.stack ⟨2, "c", .loading, w.enter "c"⟩ = ["a", "b", "c"] :=
    congrArg (· ++ ["c"]) hw
  obtain ⟨hdeeper, -, hcut⟩ := depth_limit r root "a" none
  obtain ⟨htracks, hbound⟩ := hcut rfl
  obtain ⟨hunlimited, -⟩ := hbound 2 hloadable
  refine ⟨rfl, hshallow, hloadable, ⟨_, hc, hstack, (htracks _ hc).nodup⟩, ?_,
    ?_, (hunlimited 1000000 (by decide)).1⟩
  · decide +kernel
  · rw [hdeeper 1000000 (by decide) hshallow]

end SpecLineage
