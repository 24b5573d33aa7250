import Mathlib.Data.List.Forall2
import SpecLineage.Proofs.Lineage.Simulation

/-!
# 場所の移しかえ

二つの解決の場所が、単射の移しかえ `f` で対応するとき、一方の跡は他方の跡の場所を移したものである。診断の文には場所が
現れるので、診断は符号と重さだけを比べる。
-/

namespace SpecLineage

theorem toOption_eq_map {ε ε' α β : Type} {g : α → β} {x : Except ε α} {y : Except ε' β}
    (h : y.toOption = x.toOption.map g) :
    (∃ e e', x = .error e ∧ y = .error e') ∨ ∃ a, x = .ok a ∧ y = .ok (g a) := by
  cases x with
  | error e =>
      cases y with
      | error e' => exact .inl ⟨e, e', rfl, rfl⟩
      | ok b => cases h
  | ok a =>
      cases y with
      | error e' => cases h
      | ok b => exact .inr ⟨a, rfl, congrArg _ (Option.some.inj h)⟩

theorem forall₂_flatMap {α β γ : Type} {R : β → γ → Prop} {g : α → List β} {g' : α → List γ}
    {xs : List α} (h : ∀ x ∈ xs, List.Forall₂ R (g x) (g' x)) :
    List.Forall₂ R (xs.flatMap g) (xs.flatMap g') := by
  induction xs with
  | nil => exact .nil
  | cons x xs ih =>
      rw [List.flatMap_cons, List.flatMap_cons]
      exact List.rel_append (h x List.mem_cons_self) (ih fun y hy => h y (List.mem_cons_of_mem x hy))

/-- 診断の符号と重さ。 -/
def Diagnostic.kind (d : Diagnostic) : DiagnosticCode × Severity := (d.code, d.severity)

@[simp] theorem kind_unresolved (fault : InvalidReference) :
    (unresolved fault).kind = (.parentLoadError, .error) := rfl

@[simp] theorem kind_unloaded (reference : String) (l : Location) (fault : LoadFault) :
    (unloaded reference l fault).kind = (.parentLoadError, .error) := rfl

@[simp] theorem kind_circular (path : List Location) :
    (circular path).kind = (.circularInheritance, .error) := rfl

@[simp] theorem kind_circularAllowed (path : List Location) :
    (circularAllowed path).kind = (.circularInheritanceAllowed, .warning) := rfl

@[simp] theorem kind_tooDeep (maxDepth : Nat) (base : Location) :
    (tooDeep maxDepth base).kind = (.maxInheritanceDepth, .error) := rfl

/-! ## 出来事 -/

namespace Visit

/-- 場所を移した文書。 -/
def move (f : Location → Location) (v : Visit) : Visit := ⟨v.above.map f, f v.location, v.document⟩

@[simp] theorem chain_move (f : Location → Location) (v : Visit) :
    (v.move f).chain = v.chain.map f := by
  simp only [chain, move, List.map_append, List.map_cons, List.map_nil]

theorem parent_move (f : Location → Location) (v : Visit) (l : Location) (d : Document) :
    (v.move f).parent (f l) d = (v.parent l d).move f := by
  rw [parent, chain_move]
  simp [parent, move]

end Visit

/-- 場所を移した行方。理由の文には場所が現れるので、理由は問わない。 -/
inductive Fate.Moved (f : Location → Location) (D : Set Location) : Fate → Fate → Prop
  | unresolved (fault fault' : InvalidReference) : Moved f D (.unresolved fault) (.unresolved fault')
  | rejected (l : Location) : Moved f D (.rejected l) (.rejected (f l))
  | unloaded {l : Location} (fault fault' : LoadFault) :
    l ∈ D → Moved f D (.unloaded l fault) (.unloaded (f l) fault')
  | folded {l : Location} (d : Document) : l ∈ D → Moved f D (.folded l d) (.folded (f l) d)

/-- 場所を移した出来事。 -/
inductive Event.Moved (f : Location → Location) (D : Set Location) : Event → Event → Prop
  | followed {v : Visit} (reference : String) {fate fate' : Fate} :
    (∀ l ∈ v.chain, l ∈ D) → Fate.Moved f D fate fate' →
      Moved f D (.followed v reference fate) (.followed (v.move f) reference fate')
  | overran (v : Visit) : Moved f D (.overran v) (.overran (v.move f))

section Events

variable {f : Location → Location} {D : Set Location}

theorem Fate.kind_reentry (hf : Set.InjOn f D) {v : Visit} (hchain : ∀ l ∈ v.chain, l ∈ D)
    {l : Location} (hl : l ∈ D) : (Fate.notes.reentry (v.move f) (f l)).map Diagnostic.kind =
      (Fate.notes.reentry v l).map Diagnostic.kind := by
  simp only [notes.reentry, Visit.chain_move, List.mem_map_iff_of_injOn hf hchain hl]
  split
  · simp only [List.map_cons, kind_circularAllowed]
  · rfl

theorem Fate.Moved.next? {fate fate' : Fate} (h : Fate.Moved f D fate fate') (v : Visit) :
    fate'.next? (v.move f) = (fate.next? v).map (Visit.move f) := by
  cases h with
  | folded d hl => exact congrArg some (v.parent_move f _ d)
  | _ => rfl

theorem Event.Moved.kind_notes (hf : Set.InjOn f D) {e e' : Event} (h : Event.Moved f D e e')
    (maxDepth : Nat) :
    (e'.notes maxDepth).map Diagnostic.kind = (e.notes maxDepth).map Diagnostic.kind := by
  cases h with
  | overran => simp [notes]
  | followed reference hchain hfate =>
      cases hfate with
      | unresolved => simp [notes, Fate.notes]
      | rejected => simp [notes, Fate.notes]
      | unloaded fault fault' hl => simp [notes, Fate.notes, Fate.kind_reentry hf hchain hl]
      | folded d hl => simp [notes, Fate.notes, Fate.kind_reentry hf hchain hl]

theorem Event.Moved.asked? {e e' : Event} (h : Event.Moved f D e e') :
    e'.asked? = e.asked?.map f ∧ ∀ l ∈ e.asked?, l ∈ D := by
  cases h with
  | overran => exact ⟨rfl, fun l hl => nomatch hl⟩
  | followed reference hchain hfate =>
      cases hfate with
      | unresolved => exact ⟨rfl, fun l hl => nomatch hl⟩
      | rejected => exact ⟨rfl, fun l hl => nomatch hl⟩
      | unloaded fault fault' hl => exact ⟨rfl, fun m hm => Option.some.inj hm ▸ hl⟩
      | folded d hl => exact ⟨rfl, fun m hm => Option.some.inj hm ▸ hl⟩

variable {es es' : List Event}

theorem kind_notesOf (hf : Set.InjOn f D) (h : List.Forall₂ (Event.Moved f D) es es')
    (maxDepth : Nat) :
    (notesOf maxDepth es').map Diagnostic.kind = (notesOf maxDepth es).map Diagnostic.kind := by
  induction h with
  | nil => rfl
  | cons hevent _ ih =>
      simp only [notesOf, List.flatMap_cons, List.map_append, hevent.kind_notes hf] at ih ⊢
      rw [ih]

theorem askedOf_moved (h : List.Forall₂ (Event.Moved f D) es es') :
    askedOf es' = (askedOf es).map f ∧ ∀ l ∈ askedOf es, l ∈ D := by
  induction h with
  | nil => exact ⟨rfl, fun l hl => nomatch hl⟩
  | @cons e e' es es' hevent _ ih =>
      obtain ⟨hasked, hmem⟩ := hevent.asked?
      simp only [askedOf, List.filterMap_cons, hasked] at ih ⊢
      cases he : e.asked? with
      | none => exact ih
      | some l =>
          refine ⟨congrArg (f l :: ·) ih.1, fun m hm => ?_⟩
          rcases List.mem_cons.mp hm with rfl | hm
          · exact hmem m he
          · exact ih.2 m hm

end Events

/-! ## 診断 -/

section Kinds

variable {ds ds' : List Diagnostic}

/-- 符号と重さの列が同じなら、誤りと警告の列も同じである。 -/
theorem kind_filter (h : ds'.map Diagnostic.kind = ds.map Diagnostic.kind) :
    (errorsOf ds').map Diagnostic.kind = (errorsOf ds).map Diagnostic.kind ∧
      (warningsOf ds').map Diagnostic.kind = (warningsOf ds).map Diagnostic.kind := by
  have hfilter : ∀ (p : DiagnosticCode × Severity → Bool) (xs : List Diagnostic),
      (xs.filter fun d => p d.kind).map Diagnostic.kind = (xs.map Diagnostic.kind).filter p :=
    fun p xs => (List.filter_map ..).symm
  constructor
  · exact (hfilter (fun k => k.2 == .error) ds').trans
      ((congrArg _ h).trans (hfilter (fun k => k.2 == .error) ds).symm)
  · exact (hfilter (fun k => !(k.2 == .error)) ds').trans
      ((congrArg _ h).trans (hfilter (fun k => !(k.2 == .error)) ds).symm)

theorem kind_capped (h : ds'.map Diagnostic.kind = ds.map Diagnostic.kind) (limit : Option Nat) :
    (capped limit ds').map Diagnostic.kind = (capped limit ds).map Diagnostic.kind := by
  cases limit with
  | none => exact h
  | some cap => rw [capped, capped, List.map_take, List.map_take, h]

end Kinds

/-! ## 移しかえで対応する解決 -/

namespace Resolver

/-- 場所 `l` の文書 `d` に書かれた参照は、移した先でも、移した場所に解ける。 -/
def Follows (f : Location → Location) (D : Set Location) (r r' : Resolver) (l : Location)
    (d : Document) : Prop :=
  ∀ reference ∈ d.parents,
    (r'.addressing.resolve reference (f l)).toOption =
      (r.addressing.resolve reference l).toOption.map f ∧
    ∀ m ∈ (r.addressing.resolve reference l).toOption, m ∈ D

/-- `r'` は、`D` の場所を `f` で移した `r` である。 -/
structure Moved (f : Location → Location) (D : Set Location) (r r' : Resolver) : Prop where
  injOn : Set.InjOn f D
  options : r'.options = r.options
  load : ∀ l ∈ D, (r'.load (f l)).toOption = (r.load l).toOption
  follows : ∀ l ∈ D, ∀ d, r.load l = .ok d → Follows f D r r' l d

/-- たどっている場所はどれも `D` にあり、文書の参照は移した先でも同じ場所に解ける。 -/
structure Settled (f : Location → Location) (D : Set Location) (r r' : Resolver) (v : Visit) :
    Prop where
  chain : ∀ l ∈ v.chain, l ∈ D
  follows : Follows f D r r' v.location v.document

variable {f : Location → Location} {D : Set Location} {r r' : Resolver}

theorem Moved.fate (h : Moved f D r r') {v : Visit} (hv : Settled f D r r' v) {reference : String}
    (href : reference ∈ v.document.parents) :
    Fate.Moved f D (r.fate v reference) (r'.fate (v.move f) reference) := by
  obtain ⟨hresolve, hmem⟩ := hv.follows reference href
  rcases toOption_eq_map hresolve with ⟨fault, fault', hr, hr'⟩ | ⟨l, hr, hr'⟩
  · have hfate : r.fate v reference = .unresolved fault := by simp only [Resolver.fate, hr]
    have hfate' : r'.fate (v.move f) reference = .unresolved fault' := by
      simp only [Resolver.fate, Visit.move, hr']
    rw [hfate, hfate']
    exact .unresolved fault fault'
  · have hl : l ∈ D := hmem l (by rw [hr]; rfl)
    have hmoved : r'.addressing.resolve reference (v.move f).location = .ok (f l) := hr'
    rw [fate_of_ok hr, fate_of_ok hmoved, h.options, Visit.chain_move]
    simp only [List.mem_map_iff_of_injOn h.injOn hv.chain hl]
    split
    · exact .rejected l
    · have hload := (h.load l hl).trans Option.map_id'.symm
      rcases toOption_eq_map hload with ⟨fault, fault', hd, hd'⟩ | ⟨d, hd, hd'⟩
      · rw [hd, hd']
        exact .unloaded fault fault' hl
      · rw [hd, hd']
        exact .folded d hl

theorem Moved.settled_parent (h : Moved f D r r') {v parent : Visit} (hv : Settled f D r r' v)
    {reference : String} (href : reference ∈ v.document.parents)
    (hnext : (r.fate v reference).next? v = some parent) : Settled f D r r' parent := by
  have hspec := r.fate_spec v reference
  cases hfate : r.fate v reference with
  | folded l d =>
      rw [hfate] at hspec hnext
      cases hnext
      obtain ⟨hresolve, -, hload⟩ := hspec
      have hl : l ∈ D := (hv.follows reference href).2 l (by rw [hresolve]; rfl)
      refine ⟨fun m hm => ?_, h.follows l hl d hload⟩
      rcases List.mem_append.mp hm with hm | hm
      · exact hv.chain m hm
      · rwa [List.mem_singleton.mp hm]
  | _ => rw [hfate] at hnext; cases hnext

/-- 移しかえた解決の跡は、跡の場所を移したものであり、解いた文書は同じである。 -/
theorem Moved.trail (h : Moved f D r r') (left : Nat) : ∀ v, Settled f D r r' v →
    List.Forall₂ (Event.Moved f D) (r.trail left v) (r'.trail left (v.move f)) ∧
      r'.compose left (v.move f) = r.compose left v := by
  induction left with
  | zero => exact fun v _ => ⟨.cons (.overran v) .nil, rfl⟩
  | succ left ih =>
      intro v hv
      -- 参照ごとに行方が対応し、親を重ねるなら、その親も `Settled` なので帰納法の仮定が使える。
      constructor
      · refine forall₂_flatMap fun reference href => ?_
        have hfate := h.fate hv href
        rw [branch, branch]
        refine .cons (.followed reference hv.chain hfate) ?_
        rw [hfate.next? v]
        cases hnext : (r.fate v reference).next? v with
        | none => exact .nil
        | some parent => exact (ih parent (h.settled_parent hv href hnext)).1
      · refine List.foldl_ext _ _ _ fun result reference href => ?_
        have hfate := h.fate hv href
        rw [foldParent, foldParent, hfate.next? v, h.options]
        cases hnext : (r.fate v reference).next? v with
        | none => rfl
        | some parent =>
            exact congrArg (Document.merge r.options.strategy · result)
              (ih parent (h.settled_parent hv href hnext)).2

end Resolver

/-! ## 読み込みを頼んだ場所 -/

namespace Walk

/-- `w'` は、`D` の場所を `f` で移した控えである。蓄えは使わない。 -/
structure Moved (f : Location → Location) (D : Set Location) (w w' : Walk) : Prop where
  cached : ∀ l ∈ D, w'.session.cached (f l) = w.session.cached l
  cache : w.cache = none
  cache' : w'.cache = none
  requests : w'.requests = w.requests.map f

variable {f : Location → Location} {D : Set Location} {load load' : Loader} {w w' : Walk}

theorem fetch_of_none (hcache : w.cache = none) {l : Location} (hs : w.session.cached l = none) :
    w.fetch load l = w.request load l := by
  simp only [fetch, hs, hcache, Option.map_none]

theorem Moved.fetch (hf : Set.InjOn f D)
    (hload : ∀ l ∈ D, (load' (f l)).toOption = (load l).toOption) (h : Moved f D w w') {l : Location}
    (hl : l ∈ D) : Moved f D (w.fetch load l).2 (w'.fetch load' (f l)).2 := by
  have hcached := h.cached l hl
  cases hs : w.session.cached l with
  | some d =>
      rw [hs] at hcached
      simpa only [Walk.fetch, hs, hcached] using h
  | none =>
      rw [hs] at hcached
      rw [fetch_of_none h.cache hs, fetch_of_none h.cache' hcached]
      have hrequests : w'.requests ++ [f l] = (w.requests ++ [l]).map f := by
        rw [h.requests, List.map_append, List.map_singleton]
      rcases toOption_eq_map ((hload l hl).trans Option.map_id'.symm) with
        ⟨fault, fault', hd, hd'⟩ | ⟨d, hd, hd'⟩
      · simp only [request, hd, hd']
        exact ⟨h.cached, h.cache, h.cache', hrequests⟩
      · simp only [request, hd, hd', h.cache, h.cache', Option.map_none]
        refine ⟨fun m hm => ?_, rfl, rfl, hrequests⟩
        have hiff : f m = f l ↔ m = l := hf.eq_iff hm hl
        simp only [Walk.remember, Session.cached_remember, hiff, h.cached m hm]

theorem Moved.fetchAll (hf : Set.InjOn f D)
    (hload : ∀ l ∈ D, (load' (f l)).toOption = (load l).toOption) (h : Moved f D w w')
    {ls : List Location} (hls : ∀ l ∈ ls, l ∈ D) :
    Moved f D (w.fetchAll load ls) (w'.fetchAll load' (ls.map f)) := by
  induction ls generalizing w w' with
  | nil => exact h
  | cons l ls ih =>
      exact ih (h.fetch hf hload (hls l List.mem_cons_self)) fun m hm => hls m (List.mem_cons_of_mem l hm)

end Walk

/-! ## 結果 -/

/-- `y` は、`D` の場所を `f` で移した解決の結果 `x` である。 -/
structure Resolution.Moved (f : Location → Location) (D : Set Location) (x y : Resolution) :
    Prop where
  resolved : y.outcome.resolved = x.outcome.resolved
  errors : y.outcome.errors.map Diagnostic.kind = x.outcome.errors.map Diagnostic.kind
  warnings : y.outcome.warnings.map Diagnostic.kind = x.outcome.warnings.map Diagnostic.kind
  valid : y.outcome.valid = x.outcome.valid
  suppressed : y.outcome.suppressed = x.outcome.suppressed
  ancestors : y.outcome.ancestors = x.outcome.ancestors.map f
  requests : y.requests = x.requests.map f
  ancestors_mem : ∀ l ∈ x.outcome.ancestors, l ∈ D
  requests_mem : ∀ l ∈ x.requests, l ∈ D

namespace Resolver

variable {f : Location → Location} {D : Set Location} {r r' : Resolver} {d : Document}
  {base base' : String}

theorem root_move (hbase : r'.addressing.normalize base' = f (r.addressing.normalize base)) :
    r'.root d base' = (r.root d base).move f := by
  rw [root, hbase]
  rfl

variable (h : Moved f D r r') (hroot : Settled f D r r' (r.root d base))
  (hbase : r'.addressing.normalize base' = f (r.addressing.normalize base))
include h hroot hbase

theorem Moved.events_moved :
    List.Forall₂ (Event.Moved f D) (r.events d base) (r'.events d base') ∧
      r'.resolved d base' = r.resolved d base := by
  rw [events, events, resolved, resolved, root_move hbase, h.options]
  exact h.trail (r.options.maxDepth + 1) (r.root d base) hroot

theorem Moved.kind_findings :
    (r'.findings d base').map Diagnostic.kind = (r.findings d base).map Diagnostic.kind := by
  obtain ⟨hevents, hresolved⟩ := h.events_moved hroot hbase
  rw [findings, findings, List.map_append, List.map_append, h.options, hresolved,
    kind_notesOf h.injOn hevents]

/-- 重ねた文書の場所は、読み込みを求めた場所のうち、読み込めたものである。 -/
theorem Moved.visits_moved :
    (r'.visits d base').map Visit.location = ((r.visits d base).map Visit.location).map f ∧
      ∀ l ∈ (r.visits d base).map Visit.location, l ∈ D := by
  obtain ⟨hasked, hmem⟩ := askedOf_moved (h.events_moved hroot hbase).1
  have hvisits := r.asked_filter_eq (r.options.maxDepth + 1) (r.root d base)
  have hvisits' := r'.asked_filter_eq (r'.options.maxDepth + 1) (r'.root d base')
  have hloaded : ∀ l ∈ askedOf (r.events d base),
      (r'.load (f l)).toOption.isSome = (r.load l).toOption.isSome :=
    fun l hl => congrArg Option.isSome (h.load l (hmem l hl))
  rw [← events, ← visits] at hvisits hvisits'
  rw [← hvisits', ← hvisits, hasked, List.filter_map]
  refine ⟨congrArg (List.map f) (List.filter_congr hloaded), fun l hl => hmem l ?_⟩
  exact List.mem_of_mem_filter hl

theorem Moved.requests_moved :
    (r'.resolve d base').requests = (r.resolve d base).requests.map f ∧
      ∀ l ∈ (r.resolve d base).requests, l ∈ D := by
  obtain ⟨hasked, hmem⟩ := askedOf_moved (h.events_moved hroot hbase).1
  have hstart : Walk.Moved f D (r.entered (r.addressing.normalize base) none)
      (r'.entered (r'.addressing.normalize base') none) := ⟨fun _ _ => rfl, rfl, rfl, rfl⟩
  have hwalk := (hstart.fetchAll h.injOn h.load hmem).requests
  rw [← hasked] at hwalk
  rw [(r.fetched_resolve d base none).2, (r'.fetched_resolve d base' none).2]
  refine ⟨hwalk, fun l hl => ?_⟩
  obtain ⟨w, hledger, -, hrequests⟩ := r.ledger_resolve d base none
  rw [← (r.fetched_resolve d base none).2, hrequests] at hl
  exact hmem l ((hledger.requests l).mp hl).1

theorem Moved.resolve_moved :
    Resolution.Moved f D (r.resolve d base) (r'.resolve d base') := by
  have houtcome : (r.resolve d base).outcome = r.plain d base := r.outcome_resolve d base none
  have houtcome' : (r'.resolve d base').outcome = r'.plain d base' := r'.outcome_resolve d base' none
  obtain ⟨herrors, hwarnings⟩ := kind_filter (h.kind_findings hroot hbase)
  have hcapped := kind_capped herrors r.options.maxErrors
  have hempty : (errorsOf (r'.findings d base')).isEmpty = (errorsOf (r.findings d base)).isEmpty := by
    simpa only [List.isEmpty_map] using congrArg List.isEmpty herrors
  have hfound : (errorsOf (r'.findings d base')).length = (errorsOf (r.findings d base)).length := by
    simpa only [List.length_map] using congrArg List.length herrors
  have hkept : (capped r.options.maxErrors (errorsOf (r'.findings d base'))).length =
      (capped r.options.maxErrors (errorsOf (r.findings d base))).length := by
    simpa only [List.length_map] using congrArg List.length hcapped
  obtain ⟨hvisits, hmem⟩ := h.visits_moved hroot hbase
  obtain ⟨hrequests, hrequests_mem⟩ := h.requests_moved hroot hbase
  refine ⟨?_, ?_, ?_, ?_, ?_, ?_, hrequests, ?_, hrequests_mem⟩
  all_goals rw [houtcome, plain]
  · rw [houtcome', plain]
    exact (h.events_moved hroot hbase).2
  · rw [houtcome', plain, h.options]
    exact hcapped
  · rw [houtcome', plain]
    exact hwarnings
  · rw [houtcome', plain]
    exact hempty
  · rw [houtcome', plain, h.options, hfound, hkept]
  · rw [houtcome', plain, hvisits]
    exact List.eraseDups_map_of_injOn h.injOn hmem
  · exact fun l hl => hmem l (List.mem_eraseDups.mp hl)

end Resolver

end SpecLineage
