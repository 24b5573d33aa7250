import SpecLineage.Proofs.Lineage.Circularity

/-!
# たどっている場所の列

解決の途中の時点を、根に入ることから始まる一歩ずつの動きで定める。循環を断つ設定では、どの時点でも、控えの
`stack` は、根からいまの場所までの重複のない道であり、深さより一つ多くの場所を持つ。
-/

namespace SpecLineage

/-- 解決の途中でしていること。 -/
inductive Phase where
  /-- 場所に入り、文書を取り出そうとしている。 -/
  | loading
  /-- 文書の参照をたどっている。`result` は積み上げた結果、`rest` はまだたどっていない参照である。 -/
  | following (result : Document) (rest : List String)

/-- 解決の途中の一つの時点。 -/
structure Moment where
  depth : Nat
  location : Location
  phase : Phase
  walk : Walk

namespace Moment

def stack (m : Moment) : List Location := m.walk.session.stack

end Moment

namespace Resolver

/-- 親のある文書 `d` の解決が通る時点。 -/
inductive Passes (r : Resolver) (d : Document) (base : String) (cache : Option Cache) :
    Moment → Prop
  /-- 根に入る。 -/
  | start : d.hasParents = true →
      Passes r d base cache ⟨0, r.addressing.normalize base, .following d d.parents,
        r.entered (r.addressing.normalize base) cache⟩
  /-- 輪を断たない参照の先に入る。 -/
  | enter {depth : Nat} {l m : Location} {result : Document} {reference : String}
      {rest : List String} {w : Walk} :
      Passes r d base cache ⟨depth, l, .following result (reference :: rest), w⟩ →
      depth ≤ r.options.maxDepth → r.addressing.resolve reference l = .ok m →
      (w.session.inProgress m && !r.options.allowCircular) = false →
      Passes r d base cache ⟨depth + 1, m, .loading,
        (if w.session.inProgress m then w.record (circularAllowed (w.session.cycle m))
          else w).enter m⟩
  /-- 取り出した文書の参照をたどり始める。 -/
  | load {depth : Nat} {l : Location} {parent : Document} {w w' : Walk} :
      Passes r d base cache ⟨depth, l, .loading, w⟩ → w.fetch r.load l = (.ok parent, w') →
      Passes r d base cache ⟨depth, l, .following parent parent.parents, w'⟩
  /-- 参照を一つたどり終える。 -/
  | next {depth : Nat} {l : Location} {result result' : Document} {reference : String}
      {rest : List String} {w w' : Walk} :
      Passes r d base cache ⟨depth, l, .following result (reference :: rest), w⟩ →
      depth ≤ r.options.maxDepth →
      r.follow (r.visit (r.options.maxDepth - depth)) l (result, w) reference = (result', w') →
      Passes r d base cache ⟨depth, l, .following result' rest, w'⟩

/-- 場所 `l` の文書が、`m` に解ける参照を持つ。 -/
def Refers (r : Resolver) (root : Visit) (l m : Location) : Prop :=
  ∃ d, r.source root l = some d ∧ ∃ reference ∈ d.parents, r.addressing.resolve reference l = .ok m

/-- `stack` が、根からいまの場所までの重複のない道である。 -/
structure Tracks (r : Resolver) (root : Visit) (m : Moment) : Prop where
  head : m.stack.head? = some root.location
  last : m.stack.getLast? = some m.location
  length : m.stack.length = m.depth + 1
  nodup : m.stack.Nodup
  isChain : m.stack.IsChain (r.Refers root)

variable {r : Resolver} {d : Document} {base : String} {cache : Option Cache}

/-! ## 解決が通る時点 -/

theorem Passes.foldl {depth : Nat} {l : Location} (hdepth : depth ≤ r.options.maxDepth)
    (rest : List String) : ∀ {result : Document} {w : Walk},
      r.Passes d base cache ⟨depth, l, .following result rest, w⟩ →
      r.Passes d base cache ⟨depth, l,
        .following (rest.foldl (r.follow (r.visit (r.options.maxDepth - depth)) l) (result, w)).1 [],
        (rest.foldl (r.follow (r.visit (r.options.maxDepth - depth)) l) (result, w)).2⟩ := by
  induction rest with
  | nil => exact fun h => h
  | cons reference rest ih => exact fun h => ih (h.next hdepth rfl)

theorem exists_passes_resolved (r : Resolver) (base : String) (cache : Option Cache)
    (hd : d.hasParents = true) :
    ∃ w, r.Passes d base cache ⟨0, r.addressing.normalize base,
        .following (r.resolve d base cache).outcome.resolved [], w⟩ ∧
      (r.resolve d base cache).cache = w.cache ∧
      (r.resolve d base cache).requests = w.requests := by
  have hfirst : r.Passes d base cache ⟨0, r.addressing.normalize base, .following d d.parents,
      r.entered (r.addressing.normalize base) cache⟩ := .start hd
  have hlast := hfirst.foldl (Nat.zero_le _)
  generalize hstate :
    d.parents.foldl (r.follow (r.visit (r.options.maxDepth - 0)) _) _ = state at hlast
  have hvisit : r.visit (r.options.maxDepth + 1) d (r.addressing.normalize base)
      (r.entered (r.addressing.normalize base) cache) = state := hstate
  rw [entered] at hvisit
  refine ⟨state.2, ?_, ?_, ?_⟩
  · simpa only [resolve, hd, ↓reduceIte, hvisit] using hlast
  · simp only [resolve, hd, ↓reduceIte, hvisit]
  · simp only [resolve, hd, ↓reduceIte, hvisit]

/-! ## どの時点でも成り立つこと -/

/-- 時点が、跡の文書 `v` をたどる途中にある。 -/
inductive Located (r : Resolver) (root : Visit) (cache : Option Cache) : Moment → Prop
  | following {v : Visit} {asked : List Location} {result : Document} {rest : List String}
      {w : Walk} :
      (r.overlay cache).Grounded root v → v.chain.head? = some root.location →
      w.session.stack = v.chain → w.Ledger r.load cache asked → rest ⊆ v.document.parents →
      Located r root cache ⟨v.depth, v.location, .following result rest, w⟩
  | loading {v : Visit} {asked : List Location} {reference : String} {l : Location} {w : Walk} :
      (r.overlay cache).Grounded root v → v.chain.head? = some root.location →
      w.session.stack = v.chain ++ [l] → w.Ledger r.load cache asked →
      reference ∈ v.document.parents → r.addressing.resolve reference v.location = .ok l →
      l ∉ v.chain → Located r root cache ⟨v.depth + 1, l, .loading, w⟩

section Located

variable {root : Visit} {depth : Nat} {l m : Location} {result : Document} {reference : String}
  {rest : List String} {w : Walk}

/-- 断つ参照の先には入らないから、入る場所はまだ列にない。 -/
theorem Located.enter (hcut : r.options.allowCircular = false)
    (h : r.Located root cache ⟨depth, l, .following result (reference :: rest), w⟩)
    (hr : r.addressing.resolve reference l = .ok m)
    (hopen : (w.session.inProgress m && !r.options.allowCircular) = false) :
    r.Located root cache ⟨depth + 1, m, .loading,
      (if w.session.inProgress m then w.record (circularAllowed (w.session.cycle m))
        else w).enter m⟩ := by
  cases h with
  | following hv hhead hs hw hrest =>
      rw [inProgress_of_stack hs, hcut, Bool.not_false, Bool.and_true,
        decide_eq_false_iff_not] at hopen
      rw [inProgress_of_stack hs, if_neg (by simpa using hopen)]
      refine .loading hv hhead ?_ (hw.onSession (Session.aside_enter _))
        (hrest List.mem_cons_self) hr hopen
      simp [Walk.enter, Session.enter, hs]

theorem Located.load (hcut : r.options.allowCircular = false) {parent : Document} {w' : Walk}
    (h : r.Located root cache ⟨depth, l, .loading, w⟩)
    (hfetch : w.fetch r.load l = (.ok parent, w')) :
    r.Located root cache ⟨depth, l, .following parent parent.parents, w'⟩ := by
  cases h with
  | @loading v _ reference _ _ hv hhead hs hw href hr hl =>
      have hload : (r.overlay cache).load l = .ok parent := by
        have hanswer := hw.fetch_fst l
        rw [hfetch] at hanswer
        exact hanswer.symm
      have hfate : (r.overlay cache).fate v reference = .folded l parent := by
        rw [fate_of_ok (r := r.overlay cache) hr, if_neg fun h => hl h.1, hload]
      have hnext : ((r.overlay cache).fate v reference).next? v = some (v.parent l parent) := by
        rw [hfate]
        rfl
      have hfetched := w.fetched r.load l
      rw [hfetch] at hfetched
      have hdepth : v.depth + 1 = (v.parent l parent).depth := (v.depth_parent l parent).symm
      rw [hdepth]
      refine .following (hv.parent hcut href hnext) ?_ (hfetched.stack.trans hs)
        (hw.step hfetched) (List.Subset.refl _)
      rw [Visit.chain_parent, List.head?_append, hhead]
      rfl

/-- 参照を一つたどり終えると、場所の列はもとに戻っている。 -/
theorem Located.next {left : Nat} {result' : Document} {w' : Walk}
    (h : r.Located root cache ⟨depth, l, .following result (reference :: rest), w⟩)
    (hfollow : r.follow (r.visit left) l (result, w) reference = (result', w')) :
    r.Located root cache ⟨depth, l, .following result' rest, w'⟩ := by
  cases h with
  | @following v _ _ _ _ hv hhead hs hw hrest =>
      rw [follow_eq (visit_eq _) v _ _ hw hs] at hfollow
      cases hfollow
      refine .following hv hhead ?_ (hw.after _ _) (List.subset_of_cons_subset hrest)
      simpa using hs

theorem located_of_passes (hcut : r.options.allowCircular = false) {m : Moment}
    (h : r.Passes d base cache m) : r.Located (r.root d base) cache m := by
  induction h with
  | start _ =>
      exact .following (v := r.root d base) (grounded_root rfl) rfl rfl
        (r.ledger_entered _ cache) (List.Subset.refl _)
  | enter _ _ hr hopen ih => exact ih.enter hcut hr hopen
  | load _ hfetch ih => exact ih.load hcut hfetch
  | next _ _ hfollow ih => exact ih.next hfollow

end Located

theorem Located.tracks {root : Visit} {m : Moment} (h : r.Located root cache m) :
    (r.overlay cache).Tracks root m := by
  have hedge : ∀ ⦃l m⦄, (r.overlay cache).Extends root l m → (r.overlay cache).Refers root l m :=
    fun _ _ h => h.1
  cases h with
  | @following v _ result rest w hv hhead hs hw hrest =>
      constructor
      all_goals rw [Moment.stack, hs]
      · exact hhead
      · simp [Visit.chain]
      · exact v.chain_length
      · exact hv.nodup
      · exact hv.isChain.imp hedge
  | @loading v _ reference l w hv hhead hs hw href hr hl =>
      constructor
      all_goals rw [Moment.stack, hs]
      · rw [List.head?_append, hhead]
        rfl
      · simp
      · rw [List.length_append, v.chain_length]
        rfl
      · exact hv.nodup.append (List.nodup_singleton l) (by simpa using hl)
      · exact isChain_concat (hv.isChain.imp hedge) ⟨v.document, hv.source, reference, href, hr⟩

end Resolver
end SpecLineage
