import SpecLineage.Proofs.Lineage.Accounting
import SpecLineage.Proofs.Lineage.Moment

/-!
# 読み込みと蓄えの収支

読み込みを頼むのは、控えにも蓄えにもない場所だけである。読み込めた場所は控えに残るから二度は頼まず、読み込めない
場所は、そこへ進む参照のたびに頼む。蓄えを引いた回数は、頼んだ場所の数と祖先の数とつりあう。
-/

namespace SpecLineage

namespace Walk

/-! ## 取り出しの収支 -/

/-- その場所の文書を読み込めるか。 -/
def loads (load : Loader) (l : Location) : Bool := (load l).toOption.isSome

/-- 初めの蓄えが `cache` で、`asked` の場所に読み込みを求めた後の収支。 -/
structure Tally (load : Loader) (cache : Option Cache) (asked : List Location) (w : Walk) :
    Prop where
  once : ∀ l, loads load l = true → w.requests.count l ≤ 1
  failing : ∀ l, loads load l = false → (cache.bind fun c => c.shelf.get? l) = none →
    w.requests.count l = asked.count l
  counts : ∀ c, cache = some c → ∃ c', w.cache = some c' ∧
    c'.misses = c.misses + w.requests.length ∧
    c'.hits + w.requests.countP (loads load) = c.hits + w.session.ancestors.length

variable {load : Loader} {cache : Option Cache} {asked : List Location} {w : Walk} {l : Location}
  {d : Document}

theorem Tally.start (session : Session) (hancestors : session.ancestors = []) :
    Tally load cache [] { session, cache } where
  once l _ := Nat.zero_le _
  failing l _ _ := rfl
  counts c h := ⟨c, h, rfl, by simp [hancestors]⟩

theorem Ledger.length_ancestors_remember (h : Ledger load cache asked w)
    (hs : w.session.cached l = none) (ho : load.overlay cache l = .ok d) :
    (w.session.remember l d).ancestors.length = w.session.ancestors.length + 1 := by
  have hmem : l ∉ w.session.ancestors := by
    rw [h.ancestors, List.mem_eraseDups, List.mem_filter]
    exact fun hm => h.not_mem hs ho hm.1
  simp [Session.remember, hmem]

theorem overlay_ne_ok (hload : loads load l = false)
    (hstock : (cache.bind fun c => c.shelf.get? l) = none) : load.overlay cache l ≠ .ok d := by
  intro ho
  rw [Loader.overlay, hstock] at ho
  simp [loads, ho, Except.toOption] at hload

/-- 取り出せた場所は読み込めない場所ではないから、読み込めない場所の数は変わらない。 -/
theorem Tally.count_asked (h : Tally load cache asked w) (ho : load.overlay cache l = .ok d)
    {m : Location} (hload : loads load m = false)
    (hstock : (cache.bind fun c => c.shelf.get? m) = none) :
    w.requests.count m = (asked ++ [l]).count m := by
  have hne : l ≠ m := fun hlm => overlay_ne_ok hload hstock (hlm ▸ ho)
  rw [List.count_append, List.count_singleton, beq_false_of_ne hne, h.failing m hload hstock]
  rfl

theorem Tally.remembered (h : Tally load cache asked w) (hw : Ledger load cache asked w)
    (hs : w.session.cached l = some d) : Tally load cache (asked ++ [l]) w :=
  have ho : load.overlay cache l = .ok d := (hw.answer (.remembered hs)).symm
  ⟨h.once, fun _ hload hstock => h.count_asked ho hload hstock, h.counts⟩

theorem Tally.stocked (h : Tally load cache asked w) (hw : Ledger load cache asked w) {c : Cache}
    (hs : w.session.cached l = none) (hc : w.cache = some c) (hget : c.shelf.get? l = some d) :
    Tally load cache (asked ++ [l])
      ({ w with cache := some { c with hits := c.hits + 1 } }.remember l d) := by
  have ho : load.overlay cache l = .ok d := (hw.answer (.stocked hs hc hget)).symm
  refine ⟨h.once, fun _ hload hstock => h.count_asked ho hload hstock, fun c₀ h₀ => ?_⟩
  obtain ⟨c', hc', hmisses, hhits⟩ := h.counts c₀ h₀
  obtain rfl : c = c' := Option.some.inj (hc.symm.trans hc')
  refine ⟨_, rfl, hmisses, ?_⟩
  have hlength := hw.length_ancestors_remember hs ho
  simp only [remember, hlength]
  omega

theorem Tally.loaded (h : Tally load cache asked w) (hw : Ledger load cache asked w)
    (hs : w.session.cached l = none) (hstock : w.stock l = none) (hl : load l = .ok d) :
    Tally load cache (asked ++ [l])
      ({ w with
        cache := w.cache.map fun c : Cache => Cache.insert { c with misses := c.misses + 1 } l d
        requests := w.requests ++ [l] }.remember l d) := by
  have ho : load.overlay cache l = .ok d := (hw.answer (.loaded hs hstock hl)).symm
  have hloads : loads load l = true := by rw [loads, hl]; rfl
  have hfresh : l ∉ w.requests := fun hm => hw.not_mem hs ho ((hw.requests l).mp hm).1
  refine ⟨fun m hm => ?_, fun m hload hnone => ?_, fun c₀ h₀ => ?_⟩
  · rw [remember, List.count_append, List.count_singleton]
    by_cases hlm : l = m
    · subst hlm
      simp [List.count_eq_zero_of_not_mem hfresh]
    · simpa [beq_false_of_ne hlm] using h.once m hm
  · have hne : l ≠ m := fun hlm => overlay_ne_ok hload hnone (hlm ▸ ho)
    rw [remember, List.count_append, List.count_singleton, beq_false_of_ne hne]
    exact h.count_asked ho hload hnone
  · obtain ⟨c', hc', hmisses, hhits⟩ := h.counts c₀ h₀
    refine ⟨_, by rw [remember, hc']; rfl, ?_, ?_⟩
    · simp only [Cache.insert, remember, hmisses, List.length_append, List.length_singleton]
      omega
    · have hlength := hw.length_ancestors_remember hs ho
      simp only [Cache.insert, remember, List.countP_append, List.countP_singleton, hloads, hlength,
        ↓reduceIte]
      omega

theorem Tally.failed (h : Tally load cache asked w) {fault : LoadFault} (hl : load l = .error fault) :
    Tally load cache (asked ++ [l])
      { w with
        cache := w.cache.map fun c : Cache => { c with misses := c.misses + 1 }
        requests := w.requests ++ [l] } := by
  have hloads : loads load l = false := by rw [loads, hl]; rfl
  refine ⟨fun m hm => ?_, fun m hload hnone => ?_, fun c₀ h₀ => ?_⟩
  · have hne : l ≠ m := by rintro rfl; rw [hloads] at hm; cases hm
    simpa [List.count_append, List.count_singleton, beq_false_of_ne hne] using h.once m hm
  · rw [List.count_append, List.count_append, h.failing m hload hnone]
  · obtain ⟨c', hc', hmisses, hhits⟩ := h.counts c₀ h₀
    refine ⟨_, by rw [hc']; rfl, ?_, ?_⟩
    · simp only [hmisses, List.length_append, List.length_singleton]
      omega
    · simpa [List.countP_append, List.countP_singleton, hloads] using hhits

theorem Tally.step (h : Tally load cache asked w) (hw : Ledger load cache asked w)
    {answer : Except LoadFault Document} {w' : Walk} (hf : Fetched load w l answer w') :
    Tally load cache (asked ++ [l]) w' := by
  cases hf with
  | remembered hs => exact h.remembered hw hs
  | stocked hs hc hget => exact h.stocked hw hs hc hget
  | loaded hs hstock hl => exact h.loaded hw hs hstock hl
  | failed hs hstock hl => exact h.failed hl

theorem Tally.fetchAll (h : Tally load cache asked w) (hw : Ledger load cache asked w)
    (ls : List Location) : Tally load cache (asked ++ ls) (w.fetchAll load ls) := by
  induction ls generalizing asked w with
  | nil => rw [List.append_nil]; exact h
  | cons l ls ih =>
      have hf := w.fetched load l
      simpa [Walk.fetchAll] using ih (h.step hw hf) (hw.step hf)

end Walk

namespace Resolver

variable {r : Resolver} {d : Document} {base : String} {cache : Option Cache}

/-! ## 頼んだ時点 -/

/-- `before` の場所を頼んだ後に、場所 `l` に入って、その読み込みを頼む時点。 -/
structure Asks (r : Resolver) (d : Document) (base : String) (cache : Option Cache)
    (before : List Location) (l : Location) (m : Moment) : Prop where
  passes : r.Passes d base cache m
  phase : m.phase = .loading
  location : m.location = l
  requests : m.walk.requests = before
  asked : (m.walk.fetch r.load l).2.requests = before ++ [l]

/-- 頼んだ場所は、どれもそれを頼んだ時点を持つ。 -/
def Timed (r : Resolver) (d : Document) (base : String) (cache : Option Cache) (w : Walk) : Prop :=
  ∀ before l after, w.requests = before ++ l :: after → ∃ m, r.Asks d base cache before l m

theorem Timed.fetch {depth : Nat} {l : Location} {w : Walk}
    (h : r.Passes d base cache ⟨depth, l, .loading, w⟩) (hw : r.Timed d base cache w) :
    r.Timed d base cache (w.fetch r.load l).2 := by
  have hrequests : (w.fetch r.load l).2.requests = w.requests ∨
      (w.fetch r.load l).2.requests = w.requests ++ [l] := by
    have hfetched := w.fetched r.load l
    generalize w.fetch r.load l = fetched at hfetched
    obtain ⟨answer, fetched⟩ := fetched
    cases hfetched with
    | remembered _ => exact .inl rfl
    | stocked _ _ _ => exact .inl rfl
    | loaded _ _ _ => exact .inr rfl
    | failed _ _ _ => exact .inr rfl
  intro before m after hsplit
  rcases hrequests with hsame | hmore
  · exact hw before m after (hsame.symm.trans hsplit)
  · rw [hmore] at hsplit
    -- 末尾にあるのがいま頼んだ場所であり、ほかは前に頼んだ場所である。
    rcases after.eq_nil_or_concat with rfl | ⟨after, last, rfl⟩
    · obtain ⟨rfl, hlast⟩ := List.append_inj' hsplit rfl
      cases hlast
      exact ⟨_, h, rfl, rfl, rfl, hmore⟩
    · rw [List.concat_eq_append, ← List.cons_append, ← List.append_assoc] at hsplit
      exact hw before m after (List.append_inj' hsplit rfl).1

theorem Timed.follow {left depth : Nat} (hleft : left + depth = r.options.maxDepth)
    (ih : ∀ parent l w, r.Passes d base cache ⟨depth + 1, l, .following parent parent.parents, w⟩ →
      r.Timed d base cache w → r.Timed d base cache (r.visit left parent l w).2)
    {l : Location} {result : Document} {reference : String} {rest : List String} {w : Walk}
    (h : r.Passes d base cache ⟨depth, l, .following result (reference :: rest), w⟩)
    (hw : r.Timed d base cache w) :
    r.Timed d base cache (r.follow (r.visit left) l (result, w) reference).2 := by
  simp only [Resolver.follow]
  cases hr : r.addressing.resolve reference l with
  | error fault => exact hw
  | ok m =>
      by_cases hcut : (w.session.inProgress m && !r.options.allowCircular) = true
      · simp only [hcut, ↓reduceIte]
        exact hw
      · have hentered := h.enter (by omega) hr (by simpa using hcut)
        simp only [hcut, Bool.false_eq_true, ↓reduceIte]
        generalize hwalk : (if w.session.inProgress m = true then
          w.record (circularAllowed (w.session.cycle m)) else w).enter m = entered at hentered ⊢
        have hsame : entered.requests = w.requests := by
          rw [← hwalk]
          split <;> rfl
        have htimed : r.Timed d base cache entered := by
          rw [Timed, hsame]
          exact hw
        have hfetched := htimed.fetch hentered
        cases hfetch : entered.fetch r.load m with
        | mk answer fetched =>
            rw [hfetch] at hfetched
            cases answer with
            | error fault => exact hfetched
            | ok parent => exact ih parent m fetched (hentered.load hfetch) hfetched

theorem Timed.visit (left : Nat) : ∀ depth, left + depth = r.options.maxDepth + 1 →
    ∀ (parent : Document) (l : Location) (w : Walk),
      r.Passes d base cache ⟨depth, l, .following parent parent.parents, w⟩ →
      r.Timed d base cache w → r.Timed d base cache (r.visit left parent l w).2 := by
  induction left with
  | zero => exact fun depth _ parent l w _ hw => hw
  | succ left ih =>
      intro depth hleft parent l w h hw
      have hnext : r.options.maxDepth - depth = left := by omega
      have hfold : ∀ (references : List String) (result : Document) (w : Walk),
          r.Passes d base cache ⟨depth, l, .following result references, w⟩ →
          r.Timed d base cache w →
          r.Timed d base cache (references.foldl (r.follow (r.visit left) l) (result, w)).2 := by
        intro references
        induction references with
        | nil => exact fun result w _ hw => hw
        | cons reference references ihr =>
            intro result w h hw
            have hfollow := h.next (by omega) (Eq.refl _)
            rw [hnext] at hfollow
            exact ihr _ _ hfollow (Timed.follow (by omega) (ih (depth + 1) (by omega)) h hw)
      exact hfold parent.parents parent w h hw

theorem exists_asks {before after : List Location} {l : Location}
    (h : (r.resolve d base cache).requests = before ++ l :: after) :
    ∃ m, r.Asks d base cache before l m := by
  cases hd : d.hasParents with
  | false => simp [resolve, hd] at h
  | true =>
      have hstart : r.Timed d base cache (r.entered (r.addressing.normalize base) cache) := by
        intro before l after hsplit
        simp [entered, Walk.enter] at hsplit
      refine hstart.visit _ 0 rfl d _ _ (.start hd) before l after ?_
      simpa [resolve, hd, entered] using h

theorem Asks.not_mem_stack (hcut : r.options.allowCircular = false) {before : List Location}
    {l : Location} {m : Moment} (h : r.Asks d base cache before l m) :
    l ∉ m.stack.dropLast ∧ r.addressing.normalize base ∈ m.stack.dropLast := by
  have hlocated := located_of_passes hcut h.passes
  have hphase := h.phase
  have hlocation := h.location
  cases hlocated with
  | following _ _ _ _ _ => cases hphase
  | @loading v _ _ _ w _ hhead hs _ _ _ hl =>
      cases hlocation
      simp only [Moment.stack, hs, List.dropLast_concat]
      exact ⟨hl, List.mem_of_head? hhead⟩

/-- 循環を断つ設定では、根の場所は初めから列にあるので頼まない。 -/
theorem normalize_notMem_requests (hcut : r.options.allowCircular = false) :
    r.addressing.normalize base ∉ (r.resolve d base cache).requests := by
  intro hm
  obtain ⟨before, after, hsplit⟩ := List.append_of_mem hm
  obtain ⟨m, hasks⟩ := exists_asks hsplit
  obtain ⟨hfresh, hroot⟩ := hasks.not_mem_stack hcut
  exact hfresh hroot

/-! ## 頼んだ場所へ進む参照 -/

/-- 場所 `l` に解け、輪として断たれない参照か。 -/
def reaches (r : Resolver) (l : Location) (p : Visit × String) : Bool :=
  match r.addressing.resolve p.2 p.1.location with
  | .ok m => m == l && (r.options.allowCircular || !decide (l ∈ p.1.chain))
  | .error _ => false

/-- 読み込みを求めるのは、断たれない参照のたびである。 -/
theorem count_askedOf (r : Resolver) (d : Document) (base : String) (l : Location) :
    (askedOf (r.events d base)).count l = (r.references d base).countP (r.reaches l) := by
  rw [askedOf, List.count, List.countP_filterMap]
  refine countP_events fun e he => ?_
  cases e with
  | overran v => rfl
  | followed v reference fate =>
      obtain ⟨-, -, hfate⟩ := arises_events r d base _ he
      have hspec := r.fate_spec v reference
      rw [← hfate] at hspec
      cases fate with
      | unresolved fault => simp [Event.asked?, Event.followed?, Fate.asked?, reaches, hspec]
      | rejected m =>
          obtain ⟨hr, hm, hcut⟩ := hspec
          have hnot : (m == l && !decide (l ∈ v.chain)) = false := by
            by_cases hml : m = l
            · subst hml; simp [hm]
            · simp [hml]
          simpa [Event.asked?, Event.followed?, Fate.asked?, reaches, hr, hcut] using hnot.symm
      | unloaded m fault =>
          obtain ⟨hr, hopen, -⟩ := hspec
          simp only [Event.asked?, Event.followed?, Fate.asked?, reaches, hr, Option.map_some,
            Option.getD_some]
          exact reaches_of_open hopen
      | folded m x =>
          obtain ⟨hr, hopen, -⟩ := hspec
          simp only [Event.asked?, Event.followed?, Fate.asked?, reaches, hr, Option.map_some,
            Option.getD_some]
          exact reaches_of_open hopen
where
  reaches_of_open {v : Visit} {m l : Location}
      (hopen : ¬(m ∈ v.chain ∧ r.options.allowCircular = false)) :
      (m == l) = (m == l && (r.options.allowCircular || !decide (l ∈ v.chain))) := by
    by_cases hml : m = l
    · subst hml
      by_cases hm : m ∈ v.chain
      · have hallow : r.options.allowCircular = true := by simpa [hm] using hopen
        simp [hallow]
      · simp [hm]
    · simp [hml]

/-! ## 解決の収支 -/

theorem tally_fetchedWalk (r : Resolver) (d : Document) (base : String) (cache : Option Cache) :
    (r.fetchedWalk d base cache).Tally r.load cache (askedOf ((r.overlay cache).events d base)) := by
  have hentered : (r.entered (r.addressing.normalize base) cache).Tally r.load cache [] :=
    .start _ rfl
  exact hentered.fetchAll (r.ledger_entered _ cache) _

theorem ledger_fetchedWalk (r : Resolver) (d : Document) (base : String) (cache : Option Cache) :
    (r.fetchedWalk d base cache).Ledger r.load cache (askedOf ((r.overlay cache).events d base)) :=
  (r.ledger_entered (r.addressing.normalize base) cache).fetchAll _

theorem ancestors_fetchedWalk (r : Resolver) (d : Document) (base : String) (cache : Option Cache) :
    (r.fetchedWalk d base cache).session.ancestors = (r.resolve d base cache).outcome.ancestors := by
  rw [(r.ledger_fetchedWalk d base cache).ancestors, r.outcome_resolve d base cache]
  exact congrArg List.eraseDups
    ((r.overlay cache).asked_filter_eq (r.options.maxDepth + 1) (r.root d base))

theorem count_requests_of_error {l : Location} {fault : LoadFault} (hl : r.load l = .error fault)
    (hstock : (cache.bind fun c => c.shelf.get? l) = none) :
    (r.resolve d base cache).requests.count l =
      ((r.overlay cache).references d base).countP (r.reaches l) := by
  rw [(r.fetched_resolve d base cache).2,
    (r.tally_fetchedWalk d base cache).failing l (by rw [Walk.loads, hl]; rfl) hstock]
  exact (r.overlay cache).count_askedOf d base l

theorem contains_resolve {c c' : Cache} (hc : (r.resolve d base (some c)).cache = some c') :
    (∀ l, c'.contains l = true ↔
      c.contains l = true ∨ l ∈ (r.resolve d base (some c)).outcome.ancestors) ∧
    ∀ l x, c.shelf.get? l = some x → c'.shelf.get? l = some x := by
  obtain ⟨hcache, -⟩ := r.fetched_resolve d base (some c)
  have hledger := r.ledger_fetchedWalk d base (some c)
  obtain ⟨c₁, hc₁, hget⟩ := hledger.shelf c rfl
  obtain rfl : c₁ = c' := Option.some.inj ((hc₁.symm.trans hcache.symm).trans hc)
  refine ⟨fun l => ?_, fun l x hl => by rw [hget l, hl, Option.some_or]⟩
  rw [← ancestors_fetchedWalk, hledger.ancestors, List.mem_eraseDups, List.mem_filter]
  have hrequests := hledger.requests l
  simp only [Option.bind_some] at hrequests
  simp only [Cache.contains, Shelf.contains, hget l]
  cases hold : c.shelf.get? l with
  | some x => simp
  | none =>
      have hover : r.load.overlay (some c) l = r.load l := by
        simp only [Loader.overlay, Option.bind_some, hold]
      rw [hold] at hrequests
      simp only [hover, Option.none_or, Option.isSome_none, Bool.false_eq_true, false_or]
      by_cases hl : l ∈ (r.fetchedWalk d base (some c)).requests
      · rw [if_pos hl]
        simp [(hrequests.mp hl).1]
      · rw [if_neg hl]
        have hasked : l ∉ askedOf ((r.overlay (some c)).events d base) :=
          fun hasked => hl (hrequests.mpr ⟨hasked, rfl⟩)
        simp [hasked]

end Resolver

/-- 読み込みと蓄えの収支がつりあう。文書を答える場所は高々一度、答えない場所はそこへ進む参照のたびに頼み、初めから
蓄えにある場所と、たどっている場所とは頼まない。蓄えを引いてなかった回数は頼んだ数だけ増え、あった回数の増え分と読み
込めた数とを合わせれば祖先の数になる。蓄えには祖先だけが加わる。 -/
theorem loads_balance (r : Resolver) (d : Document) (base : String) (cache : Option Cache) :
    let done := r.resolve d base cache
    (∀ l x, r.load l = .ok x → done.requests.count l ≤ 1) ∧
    (∀ c l, cache = some c → c.contains l = true → l ∉ done.requests) ∧
    (r.options.allowCircular = false →
      r.addressing.normalize base ∉ done.requests ∧
      ∀ before l after, done.requests = before ++ l :: after →
        ∃ m, r.Asks d base cache before l m ∧ l ∉ m.stack.dropLast) ∧
    (∀ l fault, r.load l = .error fault → (∀ c, cache = some c → c.contains l = false) →
      done.requests.count l = ((r.overlay cache).references d base).countP (r.reaches l)) ∧
    (∀ c, cache = some c → ∃ c', done.cache = some c' ∧
      c'.misses = c.misses + done.requests.length ∧
      c'.hits + done.requests.countP (fun l => (r.load l).toOption.isSome) =
        c.hits + done.outcome.ancestors.length ∧
      (∀ l, c'.contains l = true ↔ c.contains l = true ∨ l ∈ done.outcome.ancestors) ∧
      ∀ l x, c.shelf.get? l = some x → c'.shelf.get? l = some x) ∧
    (d.hasParents = false → done.requests = [] ∧ done.cache = cache) := by
  intro done
  obtain ⟨hcache, hrequests⟩ := r.fetched_resolve d base cache
  have hledger := r.ledger_fetchedWalk d base cache
  have htally := r.tally_fetchedWalk d base cache
  refine ⟨fun l x hl => ?_, fun c l hc hl hm => ?_, fun hcut => ?_, fun l fault hl hfresh => ?_,
    fun c hc => ?_, fun hd => ?_⟩
  · rw [hrequests]
    exact htally.once l (by rw [Walk.loads, hl]; rfl)
  · rw [hrequests, hledger.requests, hc] at hm
    have hnone : c.shelf.get? l = none := hm.2
    simp [Cache.contains, Shelf.contains, hnone] at hl
  · refine ⟨Resolver.normalize_notMem_requests hcut, fun before l after hsplit => ?_⟩
    obtain ⟨m, hasks⟩ := Resolver.exists_asks hsplit
    exact ⟨m, hasks, (hasks.not_mem_stack hcut).1⟩
  · refine Resolver.count_requests_of_error hl ?_
    cases hc : cache with
    | none => rfl
    | some c => simpa [Cache.contains, Shelf.contains] using hfresh c hc
  · obtain ⟨c', hc', hmisses, hhits⟩ := htally.counts c hc
    subst hc
    rw [r.ancestors_fetchedWalk] at hhits
    refine ⟨c', hcache.trans hc', ?_, ?_, Resolver.contains_resolve (hcache.trans hc')⟩
    · rw [hmisses, hrequests]
    · rw [hrequests]
      exact hhits
  · simp [done, Resolver.resolve, hd]

/-- 蓄えにある `c` は頼まれず、二度現れる `b` は一度だけ、読み込めない `x` は参照のたびに頼まれる。 -/
theorem loads_balance_frayed :
    let root : Document := { parents := ["b", "x", "b", "c"] }
    let stocked : Document := { parents := ["x"] }
    let cache : Cache := { shelf := ⟨[("c", stocked)]⟩, hits := 5, misses := 3 }
    let r := Resolver.frayed
    let done := r.resolve root "a" (some cache)
    (r.load "x" = .error (.notFound "x") ∧ cache.contains "x" = false) ∧
      (r.load "b" = .ok { parents := ["a", "c"] } ∧ cache.contains "c" = true) ∧
      done.requests = ["b", "x", "x", "x", "x"] ∧
      ((r.overlay (some cache)).references root "a").countP (r.reaches "x") = 4 ∧
      ∃ c', done.cache = some c' ∧ c'.misses = 8 ∧ c'.hits = 6 ∧ c'.contains "b" = true ∧
        c'.shelf.get? "c" = some stocked := by
  intro root stocked cache r done
  have hrequests : done.requests = ["b", "x", "x", "x", "x"] := by decide +kernel
  have hancestors : done.outcome.ancestors = ["b", "c"] := by decide +kernel
  obtain ⟨-, -, -, hfailing, hcache, -⟩ := loads_balance r root "a" (some cache)
  have hcount := hfailing "x" (.notFound "x") (by rfl) (by rintro c ⟨⟩; rfl)
  obtain ⟨c', hc', hmisses, hhits, hkeys, hkept⟩ := hcache cache rfl
  refine ⟨⟨by rfl, by rfl⟩, ⟨by rfl, by rfl⟩, hrequests, ?_, c', hc', ?_, ?_, ?_,
    hkept "c" stocked rfl⟩
  · rw [← hcount]
    exact congrArg (List.count "x") hrequests
  · exact hmisses.trans (congrArg (3 + List.length ·) hrequests)
  · have hloaded : done.requests.countP (fun l => (r.load l).toOption.isSome) = 1 := by
      rw [hrequests]
      rfl
    have hlength : done.outcome.ancestors.length = 2 := by rw [hancestors]; rfl
    have hstart : cache.hits = 5 := rfl
    simp only [done] at hloaded hlength
    omega
  · exact (hkeys "b").mpr (.inr (by simp [done] at hancestors; simp [hancestors]))

end SpecLineage
