import SpecLineage.Lineage.Resolve
import SpecLineage.Proofs.Distinct
import SpecLineage.Proofs.Sequence
import SpecLineage.Proofs.Lineage.Report

/-!
# 読み込みの控えと蓄え

この解決で覚えた文書と外から渡された蓄えとは、読み込みの答えを変えない。控えと蓄えの中身は、初めの蓄えと、
読み込みを求めた場所の列だけで決まる。
-/

namespace SpecLineage

/-! ## 棚 -/

namespace Shelf

theorem get?_insert (s : Shelf) (l m : Location) (d : Document) :
    (s.insert l d).get? m = if m = l then some d else s.get? m := by
  by_cases h : m = l
  · subst h
    simp [insert, get?]
  · simp only [insert, erase, get?, List.lookup_cons, beq_false_of_ne h, List.lookup_filter_of_ne h, h,
      ↓reduceIte]

@[simp] theorem get?_empty (l : Location) : ({} : Shelf).get? l = none := rfl

end Shelf

/-! ## 控え -/

namespace Session

theorem cached_remember (s : Session) (l m : Location) (d : Document) :
    (s.remember l d).cached m = if m = l then some d else s.cached m :=
  s.loaded.get?_insert l m d

/-- 覚えた文書に関わらない操作。 -/
structure Aside (f : Session → Session) : Prop where
  cached : ∀ s l, (f s).cached l = s.cached l
  ancestors : ∀ s, (f s).ancestors = s.ancestors
  remember : ∀ s l d, (f s).remember l d = f (s.remember l d)

theorem aside_enter (l : Location) : Aside (·.enter l) :=
  ⟨fun _ _ => rfl, fun _ => rfl, fun _ _ _ => rfl⟩

theorem aside_record (d : Diagnostic) : Aside (·.record d) where
  cached s l := by rw [record_eq]; rfl
  ancestors s := by rw [record_eq]
  remember s l x := by rw [record_eq, record_eq]; rfl

theorem aside_recordAll (ds : List Diagnostic) : Aside (·.recordAll ds) := by
  induction ds with
  | nil => exact ⟨fun _ _ => rfl, fun _ => rfl, fun _ _ _ => rfl⟩
  | cons d ds ih =>
      have hd := aside_record d
      refine ⟨fun s l => ?_, fun s => ?_, fun s l x => ?_⟩
      · exact (ih.cached (s.record d) l).trans (hd.cached s l)
      · exact (ih.ancestors (s.record d)).trans (hd.ancestors s)
      · exact (ih.remember (s.record d) l x).trans (congrArg (·.recordAll ds) (hd.remember s l x))

end Session

/-- 蓄えにある文書を先に取り、なければ読み込む。 -/
def Loader.overlay (load : Loader) (cache : Option Cache) : Loader := fun l =>
  match cache.bind fun c => c.shelf.get? l with
  | some d => .ok d
  | none => load l

namespace Walk

def stock (w : Walk) (l : Location) : Option Document := w.cache.bind fun c => c.shelf.get? l

def onSession (w : Walk) (f : Session → Session) : Walk := { w with session := f w.session }

/-- 順に取り出した後の控え。 -/
def fetchAll (load : Loader) (w : Walk) (ls : List Location) : Walk :=
  ls.foldl (fun w l => (w.fetch load l).2) w

def recordAll (w : Walk) (ds : List Diagnostic) : Walk := w.onSession (·.recordAll ds)

/-- 取り出しの四つの場合。答えと、後の控えを定める。 -/
inductive Fetched (load : Loader) (w : Walk) (l : Location) :
    Except LoadFault Document → Walk → Prop where
  /-- この解決で覚えている。 -/
  | remembered {d} : w.session.cached l = some d → Fetched load w l (.ok d) w
  /-- 蓄えにある。 -/
  | stocked {c d} : w.session.cached l = none → w.cache = some c → c.shelf.get? l = some d →
      Fetched load w l (.ok d)
        ({ w with cache := some { c with hits := c.hits + 1 } }.remember l d)
  /-- どちらにもなく、読み込めた。 -/
  | loaded {d} : w.session.cached l = none → w.stock l = none → load l = .ok d →
      Fetched load w l (.ok d)
        ({ w with
          cache := w.cache.map fun c : Cache => Cache.insert { c with misses := c.misses + 1 } l d
          requests := w.requests ++ [l] }.remember l d)
  /-- どちらにもなく、読み込めない。 -/
  | failed {fault} : w.session.cached l = none → w.stock l = none → load l = .error fault →
      Fetched load w l (.error fault)
        { w with
          cache := w.cache.map fun c : Cache => { c with misses := c.misses + 1 }
          requests := w.requests ++ [l] }

theorem fetched (load : Loader) (w : Walk) (l : Location) :
    Fetched load w l (w.fetch load l).1 (w.fetch load l).2 := by
  cases hs : w.session.cached l with
  | some d => simpa only [fetch, hs] using .remembered hs
  | none =>
      obtain ⟨session, cache, requests⟩ := w
      cases cache with
      | none =>
          cases hl : load l with
          | ok d => simpa [fetch, hs, request, hl] using .loaded hs rfl hl
          | error fault => simpa [fetch, hs, request, hl] using .failed hs rfl hl
      | some c =>
          cases hc : c.shelf.get? l with
          | some d => simpa [fetch, hs, Cache.get, hc] using .stocked hs rfl hc
          | none =>
              cases hl : load l with
              | ok d => simpa [fetch, hs, Cache.get, hc, request, hl] using .loaded hs hc hl
              | error fault => simpa [fetch, hs, Cache.get, hc, request, hl] using .failed hs hc hl

theorem Fetched.stack {load : Loader} {w w' : Walk} {l : Location}
    {answer : Except LoadFault Document} (h : Fetched load w l answer w') :
    w'.session.stack = w.session.stack := by
  cases h <;> rfl

theorem Fetched.recorded {load : Loader} {w w' : Walk} {l : Location}
    {answer : Except LoadFault Document} (h : Fetched load w l answer w') {limit : Option Nat}
    {ds : List Diagnostic} (hw : w.session.Recorded limit ds) :
    w'.session.Recorded limit ds := by
  cases h <;> exact ⟨hw.maxErrors, hw.errors, hw.warnings, hw.suppressed⟩

/-- 覚えた文書に関わらない操作は、取り出しと順を入れ替えられる。 -/
theorem fetch_onSession {f : Session → Session} (hf : Session.Aside f) (load : Loader) (w : Walk)
    (l : Location) :
    (w.onSession f).fetch load l = ((w.fetch load l).1, (w.fetch load l).2.onSession f) := by
  obtain ⟨session, cache, requests⟩ := w
  have hc : (f session).cached l = session.cached l := hf.cached session l
  cases hs : session.cached l with
  | some d => simp [fetch, onSession, hc, hs]
  | none =>
      cases cache with
      | none =>
          cases hl : load l <;> simp [fetch, onSession, hc, hs, request, hl, Walk.remember, hf.remember]
      | some c =>
          cases hg : c.shelf.get? l with
          | some d => simp [fetch, onSession, hc, hs, Cache.get, hg, Walk.remember, hf.remember]
          | none =>
              cases hl : load l <;>
                simp [fetch, onSession, hc, hs, Cache.get, hg, request, hl, Walk.remember, hf.remember]

theorem fetchAll_onSession {f : Session → Session} (hf : Session.Aside f) (load : Loader) (w : Walk)
    (ls : List Location) : (w.onSession f).fetchAll load ls = (w.fetchAll load ls).onSession f := by
  induction ls generalizing w with
  | nil => rfl
  | cons l ls ih => simpa only [fetchAll, List.foldl_cons, fetch_onSession hf] using ih (w.fetch load l).2

theorem recorded_fetchAll {limit : Option Nat} {ds : List Diagnostic} {w : Walk}
    (hw : w.session.Recorded limit ds) (load : Loader) (ls : List Location) :
    (w.fetchAll load ls).session.Recorded limit ds := by
  induction ls generalizing w with
  | nil => exact hw
  | cons l ls ih => exact ih ((w.fetched load l).recorded hw)

theorem fetchAll_append (load : Loader) (w : Walk) (ls ms : List Location) :
    w.fetchAll load (ls ++ ms) = (w.fetchAll load ls).fetchAll load ms := by
  simp only [fetchAll, List.foldl_append]

/-! ## 控えと蓄えの中身 -/

/-- 初めの蓄えが `cache` で、`asked` の場所に読み込みを求めた後の、控えと蓄えの中身。 -/
structure Ledger (load : Loader) (cache : Option Cache) (asked : List Location) (w : Walk) :
    Prop where
  cached : ∀ l, w.session.cached l = if l ∈ asked then (load.overlay cache l).toOption else none
  ancestors : w.session.ancestors =
    (asked.filter fun l => (load.overlay cache l).toOption.isSome).eraseDups
  requests : ∀ l, l ∈ w.requests ↔ l ∈ asked ∧ (cache.bind fun c => c.shelf.get? l) = none
  cache_none : cache = none → w.cache = none
  shelf : ∀ c, cache = some c → ∃ c', w.cache = some c' ∧ ∀ l, c'.shelf.get? l =
    (c.shelf.get? l).or (if l ∈ w.requests then (load l).toOption else none)

variable {load : Loader} {cache : Option Cache} {asked : List Location} {w : Walk}

theorem Ledger.start (session : Session) (hloaded : session.loaded = {})
    (hancestors : session.ancestors = []) : Ledger load cache [] { session, cache } where
  cached l := by simp [Session.cached, hloaded]
  ancestors := hancestors
  requests l := by simp
  cache_none h := h
  shelf c h := ⟨c, h, fun l => by simp⟩

theorem Ledger.onSession {f : Session → Session} (hf : Session.Aside f)
    (h : Ledger load cache asked w) : Ledger load cache asked (w.onSession f) where
  cached l := (hf.cached w.session l).trans (h.cached l)
  ancestors := (hf.ancestors w.session).trans h.ancestors
  requests := h.requests
  cache_none := h.cache_none
  shelf := h.shelf

/-- 蓄えにもともとあった文書だけが、読み込みを求めずに蓄えから取り出される。 -/
theorem Ledger.of_stock (h : Ledger load cache asked w) {l : Location}
    (hc : w.session.cached l = none) :
    w.stock l = cache.bind fun c => c.shelf.get? l := by
  cases hcache : cache with
  | none => simp [stock, h.cache_none hcache]
  | some c =>
      obtain ⟨c', hc', hget⟩ := h.shelf c hcache
      simp only [stock, hc', Option.bind_some, hget]
      cases hold : c.shelf.get? l with
      | some d => rfl
      | none =>
          split
          · rename_i hl
            obtain ⟨hasked, hstock⟩ := (h.requests l).mp hl
            have hnone := h.cached l
            rw [hc, if_pos hasked, Loader.overlay, hstock] at hnone
            exact hnone.symm
          · rfl

theorem Ledger.answer (h : Ledger load cache asked w) {l : Location}
    {answer : Except LoadFault Document} {w' : Walk} (hf : Fetched load w l answer w') :
    answer = load.overlay cache l := by
  cases hf with
  | @remembered d hs =>
      have hl := h.cached l
      rw [hs] at hl
      split at hl
      · cases ho : load.overlay cache l with
        | ok x => rw [ho] at hl; cases hl; rfl
        | error _ => rw [ho] at hl; cases hl
      · cases hl
  | stocked hs hw hc =>
      have hstock := h.of_stock hs
      simp only [stock, hw, Option.bind_some, hc] at hstock
      simp only [Loader.overlay, ← hstock]
  | loaded hs hc hl => simp only [Loader.overlay, ← h.of_stock hs, hc, hl]
  | failed hs hc hl => simp only [Loader.overlay, ← h.of_stock hs, hc, hl]

/-- 覚えていない場所は、まだ読み込みを求めていないか、読み込めなかった場所である。 -/
theorem Ledger.not_mem (h : Ledger load cache asked w) {l : Location} {d : Document}
    (hs : w.session.cached l = none) (ho : load.overlay cache l = .ok d) : l ∉ asked := by
  intro hl
  have hn := h.cached l
  rw [hs, if_pos hl, ho] at hn
  cases hn

theorem Ledger.mem_requests_concat (h : Ledger load cache asked w) {l : Location}
    (hstock : (cache.bind fun c => c.shelf.get? l) = none) (m : Location) :
    m ∈ w.requests ++ [l] ↔
      m ∈ asked ++ [l] ∧ (cache.bind fun c => c.shelf.get? m) = none := by
  rw [List.mem_append, List.mem_append, List.mem_singleton, h.requests m]
  by_cases hm : m = l
  · subst hm
    simp [hstock]
  · simp [hm]

/-- 読み込めた場所を新しく覚えた控え。 -/
theorem Ledger.remember (h : Ledger load cache asked w) {l : Location} {d : Document}
    (hs : w.session.cached l = none) (ho : load.overlay cache l = .ok d) {cache' : Option Cache}
    {requests : List Location}
    (hrequests : ∀ m, m ∈ requests ↔ m ∈ asked ++ [l] ∧ (cache.bind fun c => c.shelf.get? m) = none)
    (hnone : cache = none → cache' = none)
    (hshelf : ∀ c, cache = some c → ∃ c', cache' = some c' ∧ ∀ m, c'.shelf.get? m =
      (c.shelf.get? m).or (if m ∈ requests then (load m).toOption else none)) :
    Ledger load cache (asked ++ [l])
      (Walk.remember { w with cache := cache', requests } l d) where
  cached m := by
    simp only [Walk.remember, Session.cached_remember, h.cached m, List.mem_append,
      List.mem_singleton]
    by_cases hm : m = l
    · subst hm; simp [ho, Except.toOption]
    · simp [hm]
  ancestors := by
    have hl := h.not_mem hs ho
    have hmem : l ∉ w.session.ancestors := by
      rw [h.ancestors, List.mem_eraseDups, List.mem_filter]
      exact fun hm => hl hm.1
    have hf : (asked ++ [l]).filter (fun l => (load.overlay cache l).toOption.isSome) =
        asked.filter (fun l => (load.overlay cache l).toOption.isSome) ++ [l] := by
      simp [ho, Except.toOption]
    rw [hf, List.eraseDups_concat, if_neg (fun hm => hl (List.mem_of_mem_filter hm)), ← h.ancestors]
    simp only [Walk.remember, Session.remember, List.contains_eq_mem, hmem, decide_false,
      Bool.false_eq_true, ↓reduceIte]
  requests := hrequests
  cache_none := hnone
  shelf := hshelf

theorem Ledger.remembered (h : Ledger load cache asked w) {l : Location} {d : Document}
    (hs : w.session.cached l = some d) : Ledger load cache (asked ++ [l]) w := by
  have ho : load.overlay cache l = .ok d := (h.answer (.remembered hs)).symm
  have hl : l ∈ asked := by
    have hn := h.cached l
    rw [hs] at hn
    split at hn
    · assumption
    · cases hn
  have hmem : ∀ m, m ∈ asked ++ [l] ↔ m ∈ asked := by
    intro m
    rw [List.mem_append, List.mem_singleton, or_iff_left_iff_imp]
    rintro rfl
    exact hl
  refine ⟨fun m => ?_, ?_, fun m => ?_, h.cache_none, h.shelf⟩
  · simpa only [hmem] using h.cached m
  · have hf : (asked ++ [l]).filter (fun l => (load.overlay cache l).toOption.isSome) =
        asked.filter (fun l => (load.overlay cache l).toOption.isSome) ++ [l] := by
      simp [ho, Except.toOption]
    have hfound : l ∈ asked.filter fun l => (load.overlay cache l).toOption.isSome :=
      List.mem_filter.mpr ⟨hl, by rw [ho]; rfl⟩
    rw [h.ancestors, hf, List.eraseDups_concat, if_pos hfound]
  · simpa only [hmem] using h.requests m

theorem Ledger.stocked (h : Ledger load cache asked w) {l : Location} {c : Cache} {d : Document}
    (hs : w.session.cached l = none) (hw : w.cache = some c) (hc : c.shelf.get? l = some d) :
    Ledger load cache (asked ++ [l])
      ({ w with cache := some { c with hits := c.hits + 1 } }.remember l d) := by
  have ho : load.overlay cache l = .ok d := (h.answer (.stocked hs hw hc)).symm
  have hstock := h.of_stock hs
  simp only [stock, hw, Option.bind_some, hc] at hstock
  refine h.remember hs ho (fun m => ?_) (fun hn => ?_) (fun c₀ h₀ => ?_)
  · rw [h.requests m, List.mem_append, List.mem_singleton, and_congr_left_iff]
    intro hm
    refine ⟨Or.inl, fun hor => hor.resolve_right ?_⟩
    rintro rfl
    rw [← hstock] at hm
    cases hm
  · rw [hn] at hstock
    cases hstock
  · obtain ⟨c', hc', hget⟩ := h.shelf c₀ h₀
    rw [hw] at hc'
    cases hc'
    exact ⟨_, rfl, hget⟩

theorem Ledger.loaded (h : Ledger load cache asked w) {l : Location} {d : Document}
    (hs : w.session.cached l = none) (hc : w.stock l = none) (hl : load l = .ok d) :
    Ledger load cache (asked ++ [l])
      ({ w with
        cache := w.cache.map fun c : Cache => Cache.insert { c with misses := c.misses + 1 } l d
        requests := w.requests ++ [l] }.remember l d) := by
  have ho : load.overlay cache l = .ok d := (h.answer (.loaded hs hc hl)).symm
  have hstock := h.of_stock hs
  rw [hc] at hstock
  refine h.remember hs ho (h.mem_requests_concat hstock.symm) (fun hn => ?_) (fun c₀ h₀ => ?_)
  · simp [h.cache_none hn]
  · obtain ⟨c', hc', hget⟩ := h.shelf c₀ h₀
    refine ⟨_, by rw [hc']; rfl, fun m => ?_⟩
    rw [h₀, Option.bind_some] at hstock
    simp only [Cache.insert, Shelf.get?_insert, hget m, List.mem_append, List.mem_singleton]
    by_cases hm : m = l
    · subst hm
      simp [← hstock, hl, Except.toOption]
    · simp [hm]

theorem Ledger.failed (h : Ledger load cache asked w) {l : Location} {fault : LoadFault}
    (hs : w.session.cached l = none) (hc : w.stock l = none) (hl : load l = .error fault) :
    Ledger load cache (asked ++ [l])
      { w with
        cache := w.cache.map fun c : Cache => { c with misses := c.misses + 1 }
        requests := w.requests ++ [l] } := by
  have ho : load.overlay cache l = .error fault := (h.answer (.failed hs hc hl)).symm
  have hstock := h.of_stock hs
  rw [hc] at hstock
  refine ⟨fun m => ?_, ?_, h.mem_requests_concat hstock.symm, fun hn => ?_, fun c₀ h₀ => ?_⟩
  · simp only [h.cached m, List.mem_append, List.mem_singleton]
    by_cases hm : m = l
    · subst hm
      simp [ho, Except.toOption]
    · simp [hm]
  · rw [h.ancestors, List.filter_append]
    simp [ho, Except.toOption]
  · simp [h.cache_none hn]
  · obtain ⟨c', hc', hget⟩ := h.shelf c₀ h₀
    refine ⟨_, by rw [hc']; rfl, fun m => ?_⟩
    simp only [hget m, List.mem_append, List.mem_singleton]
    by_cases hm : m = l
    · subst hm
      simp [hl, Except.toOption]
    · simp [hm]

theorem Ledger.step (h : Ledger load cache asked w) {l : Location}
    {answer : Except LoadFault Document} {w' : Walk} (hf : Fetched load w l answer w') :
    Ledger load cache (asked ++ [l]) w' := by
  cases hf with
  | remembered hs => exact h.remembered hs
  | stocked hs hw hc => exact h.stocked hs hw hc
  | loaded hs hc hl => exact h.loaded hs hc hl
  | failed hs hc hl => exact h.failed hs hc hl

theorem Ledger.fetch_fst (h : Ledger load cache asked w) (l : Location) :
    (w.fetch load l).1 = load.overlay cache l := h.answer (w.fetched load l)

theorem Ledger.fetchAll (h : Ledger load cache asked w) (ls : List Location) :
    Ledger load cache (asked ++ ls) (w.fetchAll load ls) := by
  induction ls generalizing asked w with
  | nil => rw [List.append_nil]; exact h
  | cons l ls ih => simpa [Walk.fetchAll] using ih (h.step (w.fetched load l))

end Walk
end SpecLineage
