import Mathlib.Data.List.Perm.Basic
import SpecLineage.Lineage.Store
import SpecLineage.Proofs.Lineage.Findings
import SpecLineage.Proofs.Lineage.Simulation

/-!
# 参照の収支

たどる文書の参照は、どれもちょうど一度たどられ、親を重ねるか、輪を断つか、読み込みに失敗するかのどれかになる。
深すぎた文書は一つずつ誤りになる。診断の数は、この収支から決まる。
-/

namespace SpecLineage

def Visit.references (v : Visit) : List (Visit × String) :=
  v.document.parents.map fun reference => (v, reference)

namespace Event

def followed? : Event → Option (Visit × String)
  | followed v reference _ => some (v, reference)
  | overran _ => none

def overran? : Event → Option Visit
  | followed .. => none
  | overran v => some v

end Event

namespace Resolver

variable (r : Resolver)

/-- 参照をたどる文書。根と、深さの上限までに重ねた文書とからなる。 -/
def expanded (d : Document) (base : String) : List Visit :=
  r.root d base :: (r.visits d base).filter (·.depth ≤ r.options.maxDepth)

/-- たどる文書に書かれたすべての参照。 -/
def references (d : Document) (base : String) : List (Visit × String) :=
  (r.expanded d base).flatMap Visit.references

/-- たどっている場所へ戻る参照か。 -/
def closes (p : Visit × String) : Bool :=
  match r.addressing.resolve p.2 p.1.location with
  | .ok l => decide (l ∈ p.1.chain)
  | .error _ => false

/-- 親を重ねる参照か。 -/
def folds (p : Visit × String) : Bool := ((r.fate p.1 p.2).next? p.1).isSome

variable {r}

/-! ## 跡にわたる収支 -/

theorem depth_le_of_mem_visits (left : Nat) : ∀ v : Visit, left + v.depth = r.options.maxDepth + 1 →
    ∀ u ∈ visitsOf (r.trail left v), u.depth ≤ r.options.maxDepth + 1 := by
  induction left with
  | zero =>
      intro v _ u hu
      cases hu
  | succ left ih =>
      intro v hv u hu
      rw [visitsOf_trail] at hu
      obtain ⟨reference, -, hu⟩ := List.mem_flatMap.mp hu
      cases hfate : r.fate v reference with
      | unresolved fault => rw [below, hfate] at hu; cases hu
      | rejected l => rw [below, hfate] at hu; cases hu
      | unloaded l fault => rw [below, hfate] at hu; cases hu
      | folded l x =>
          have hdepth := v.depth_parent l x
          rw [below, hfate] at hu
          rcases List.mem_cons.mp hu with rfl | hu
          · omega
          · exact ih (v.parent l x) (by omega) u hu

/-- 深すぎた文書は、重ねた文書のうち、上限を一つだけ越えたものである。 -/
theorem overran_trail (left : Nat) : ∀ v : Visit, left + v.depth = r.options.maxDepth + 1 →
    (r.trail left v).filterMap Event.overran? =
      (v :: visitsOf (r.trail left v)).filter (·.depth == r.options.maxDepth + 1) := by
  induction left with
  | zero =>
      intro v hv
      have hv : v.depth = r.options.maxDepth + 1 := by omega
      simp [trail, visitsOf, Event.overran?, Event.visit?, hv]
  | succ left ih =>
      intro v hv
      have hshallow : (v.depth == r.options.maxDepth + 1) = false := by
        rw [beq_eq_false_iff_ne]
        omega
      rw [List.filter_cons_of_neg (by simp [hshallow]), visitsOf_trail, filterMap_trail,
        List.filter_flatMap]
      refine List.flatMap_congr fun reference _ => ?_
      rw [below]
      cases hfate : r.fate v reference with
      | unresolved fault => rfl
      | rejected l => rfl
      | unloaded l fault => rfl
      | folded l x =>
          have hdepth := v.depth_parent l x
          exact ih (v.parent l x) (by omega)

/-- たどった参照は、上限までの文書の参照を、順序を除いてちょうど一度ずつ並べたものである。 -/
theorem followed_trail_perm (left : Nat) :
    ∀ v : Visit, left + v.depth = r.options.maxDepth + 1 →
      ((r.trail left v).filterMap Event.followed?).Perm
        (((v :: visitsOf (r.trail left v)).filter (·.depth ≤ r.options.maxDepth)).flatMap
          Visit.references) := by
  induction left with
  | zero =>
      intro v hv
      have hv : ¬v.depth ≤ r.options.maxDepth := by omega
      rw [List.filter_cons_of_neg (by simpa using hv)]
      exact .refl _
  | succ left ih =>
      intro v hv
      have hshallow : v.depth ≤ r.options.maxDepth := by omega
      -- 文書の参照をまとめて前に出すと、残りは親ごとの収支である。
      have hgather := List.map_append_flatMap_perm v.document.parents (fun reference => (v, reference))
        fun reference => ((r.below (fun parent => visitsOf (r.trail left parent)) v reference).filter
          (·.depth ≤ r.options.maxDepth)).flatMap Visit.references
      rw [List.filter_cons_of_pos (by simpa using hshallow), List.flatMap_cons, visitsOf_trail,
        filterMap_trail, List.filter_flatMap, List.flatMap_assoc]
      refine List.Perm.trans (List.Perm.flatMap_left _ fun reference _ => ?_) hgather.symm
      rw [below]
      cases hfate : r.fate v reference with
      | unresolved fault => exact .refl _
      | rejected l => exact .refl _
      | unloaded l fault => exact .refl _
      | folded l x =>
          have hdepth := v.depth_parent l x
          exact (ih (v.parent l x) (by omega)).cons (v, reference)

/-! ## 根からの収支 -/

variable {d : Document} {base : String}

theorem depth_le_of_mem {v : Visit} (hv : v ∈ r.visits d base) : v.depth ≤ r.options.maxDepth + 1 :=
  depth_le_of_mem_visits (r.options.maxDepth + 1) (r.root d base) rfl v hv

theorem overran_events (r : Resolver) (d : Document) (base : String) :
    (r.events d base).filterMap Event.overran? =
      (r.visits d base).filter (·.depth == r.options.maxDepth + 1) :=
  overran_trail (r.options.maxDepth + 1) (r.root d base) rfl

theorem followed_events_perm (r : Resolver) (d : Document) (base : String) :
    ((r.events d base).filterMap Event.followed?).Perm (r.references d base) :=
  followed_trail_perm (r.options.maxDepth + 1) (r.root d base) rfl

/-- たどった参照は、親を重ねるか、輪を断つか、読み込みに失敗するかのどれかである。 -/
theorem length_followed (es : List Event) : (es.filterMap Event.followed?).length =
    es.countP Event.isFailed + es.countP Event.isRejected + (visitsOf es).length := by
  induction es with
  | nil => rfl
  | cons e es ih =>
      rw [visitsOf] at ih ⊢
      rw [List.filterMap_cons, List.filterMap_cons, List.countP_cons, List.countP_cons]
      cases e with
      | overran v => exact ih
      | followed v reference fate =>
          cases fate <;> simp [Event.followed?, Event.visit?, Fate.next?, Event.isFailed,
            Event.isRejected, ih] <;> omega

theorem closes_of_ok {v : Visit} {reference : String} {l : Location}
    (h : r.addressing.resolve reference v.location = .ok l) :
    r.closes (v, reference) = decide (l ∈ v.chain) := by
  simp only [closes, h]

/-- 読み込みまで進む参照は、場所に戻らないか、循環を許すときに戻る。 -/
theorem closes_of_open {v : Visit} {reference : String} {l : Location}
    (h : r.addressing.resolve reference v.location = .ok l)
    (hopen : ¬(l ∈ v.chain ∧ r.options.allowCircular = false)) :
    decide (l ∈ v.chain) = (r.options.allowCircular && r.closes (v, reference)) ∧
      false = (!r.options.allowCircular && r.closes (v, reference)) := by
  rw [closes_of_ok h]
  by_cases hl : l ∈ v.chain
  · have hallow : r.options.allowCircular = true := by simpa [hl] using hopen
    simp [hl, hallow]
  · simp [hl]

theorem closes_of_arises {P : Visit → Prop} {e : Event} (h : Arises r P e) :
    e.isReentry = ((e.followed?.map fun p => r.options.allowCircular && r.closes p).getD false) ∧
      e.isRejected = ((e.followed?.map fun p => !r.options.allowCircular && r.closes p).getD false) := by
  cases e with
  | overran v => exact ⟨rfl, rfl⟩
  | followed v reference fate =>
      obtain ⟨-, -, hfate⟩ := h
      have hspec := r.fate_spec v reference
      rw [← hfate] at hspec
      cases fate with
      | unresolved fault =>
          have hcloses : r.closes (v, reference) = false := by simp only [closes, hspec]
          simp [Event.isReentry, Event.isRejected, Event.followed?, hcloses]
      | rejected l =>
          obtain ⟨hr, hl, hcut⟩ := hspec
          have hcloses := closes_of_ok hr
          simp [Event.isReentry, Event.isRejected, Event.followed?, hcloses, hl, hcut]
      | unloaded l fault =>
          obtain ⟨hr, hopen, -⟩ := hspec
          exact closes_of_open hr hopen
      | folded l x =>
          obtain ⟨hr, hopen, -⟩ := hspec
          exact closes_of_open hr hopen

theorem countP_events {p : Event → Bool} {q : Visit × String → Bool}
    (h : ∀ e ∈ r.events d base, p e = (e.followed?.map q).getD false) :
    (r.events d base).countP p = (r.references d base).countP q := by
  rw [← (followed_events_perm r d base).countP_eq, List.countP_filterMap]
  exact List.countP_congr fun e he => by rw [h e he]

theorem arises_events (r : Resolver) (d : Document) (base : String) :
    ∀ e ∈ r.events d base, Arises r (fun _ => True) e :=
  arises_trail (r.options.maxDepth + 1) (r.root d base)

theorem followed_mem_events {v : Visit} {reference : String}
    (h : (v, reference) ∈ r.references d base) :
    .followed v reference (r.fate v reference) ∈ r.events d base := by
  obtain ⟨e, he, hep⟩ := List.mem_filterMap.mp ((followed_events_perm r d base).mem_iff.mpr h)
  have harises := arises_events r d base e he
  cases e with
  | overran v => cases hep
  | followed v reference fate =>
      obtain ⟨-, -, rfl⟩ := harises
      cases hep
      exact he

theorem overran_mem_events {v : Visit} : .overran v ∈ r.events d base ↔
    v ∈ r.visits d base ∧ v.depth = r.options.maxDepth + 1 := by
  have hmem : .overran v ∈ r.events d base ↔ v ∈ (r.events d base).filterMap Event.overran? := by
    rw [List.mem_filterMap]
    constructor
    · exact fun h => ⟨_, h, rfl⟩
    · rintro ⟨e, he, hev⟩
      cases e with
      | overran u => cases hev; exact he
      | followed u reference fate => cases hev
  rw [hmem, overran_events, List.mem_filter, beq_iff_eq]

theorem depth_le_of_shallow (h : r.Shallow d base) {v : Visit} (hv : v ∈ r.visits d base) :
    v.depth ≤ r.options.maxDepth := by
  by_contra hdeep
  have hle := depth_le_of_mem hv
  have hevent : .overran v ∈ r.events d base := overran_mem_events.mpr ⟨hv, by omega⟩
  have hover := (shallow_iff r d base).mp h _ hevent
  cases hover

/-! ## 診断の数 -/

theorem length_references (h : r.options.maxErrors = none) (d : Document) (base : String) :
    (r.references d base).length = (r.plain d base).count .parentLoadError +
      (r.plain d base).count .circularInheritance + (r.visits d base).length := by
  rw [count_plain h rfl, count_plain h rfl, ← (followed_events_perm r d base).length_eq]
  exact length_followed (r.events d base)

theorem count_maxInheritanceDepth (h : r.options.maxErrors = none) (d : Document) (base : String) :
    (r.plain d base).count .maxInheritanceDepth =
      (r.visits d base).countP (·.depth == r.options.maxDepth + 1) := by
  have hover := congrArg List.length (overran_events r d base)
  rw [List.length_filterMap_eq_countP, ← List.countP_eq_length_filter] at hover
  rw [count_plain h rfl, ← hover]
  refine List.countP_congr fun e _ => ?_
  cases e <;> exact Iff.rfl

theorem count_circularInheritanceAllowed (h : r.options.maxErrors = none) (d : Document)
    (base : String) : (r.plain d base).count .circularInheritanceAllowed =
      if r.options.allowCircular then (r.references d base).countP r.closes else 0 := by
  rw [count_plain h rfl]
  have hcount := countP_events fun e he => (closes_of_arises (arises_events r d base e he)).1
  refine hcount.trans ?_
  cases r.options.allowCircular <;> simp

theorem count_circularInheritance (h : r.options.maxErrors = none) (d : Document)
    (base : String) : (r.plain d base).count .circularInheritance =
      if r.options.allowCircular then 0 else (r.references d base).countP r.closes := by
  rw [count_plain h rfl]
  have hcount := countP_events fun e he => (closes_of_arises (arises_events r d base e he)).2
  refine hcount.trans ?_
  cases r.options.allowCircular <;> simp

/-! ## 誤りの有無 -/

theorem errorsOf_reentry (v : Visit) (l : Location) : errorsOf (Fate.notes.reentry v l) = [] := by
  unfold Fate.notes.reentry
  split <;> rfl

/-- 誤りのない出来事は、親を重ねたことだけである。 -/
theorem errorsOf_notes_eq_nil_iff (maxDepth : Nat) (e : Event) :
    errorsOf (e.notes maxDepth) = [] ↔ e.visit?.isSome = true := by
  cases e with
  | overran v => simp [Event.notes, errorsOf, tooDeep, Diagnostic.error, Diagnostic.isError, Event.visit?]
  | followed v reference fate =>
      cases fate with
      | unresolved fault => simp [Event.notes, Fate.notes, errorsOf, unresolved, Diagnostic.error,
          Diagnostic.isError, Event.visit?, Fate.next?]
      | rejected l => simp [Event.notes, Fate.notes, errorsOf, circular, Diagnostic.error,
          Diagnostic.isError, Event.visit?, Fate.next?]
      | unloaded l fault =>
          rw [Event.notes, Fate.notes, errorsOf_append, errorsOf_reentry]
          simp [errorsOf, unloaded, Diagnostic.error, Diagnostic.isError, Event.visit?, Fate.next?]
      | folded l x => simp [Event.notes, Fate.notes, errorsOf_reentry, Event.visit?, Fate.next?]

theorem errorsOf_notesOf_eq_nil_iff (maxDepth : Nat) (es : List Event) :
    errorsOf (notesOf maxDepth es) = [] ↔ ∀ e ∈ es, e.visit?.isSome = true := by
  rw [errorsOf, notesOf, List.filter_flatMap, List.flatMap_eq_nil_iff]
  exact forall₂_congr fun e _ => errorsOf_notes_eq_nil_iff maxDepth e

theorem forall_visit_iff (r : Resolver) (d : Document) (base : String) :
    (∀ e ∈ r.events d base, e.visit?.isSome = true) ↔
      (∀ p ∈ r.references d base, r.folds p = true) ∧
        ∀ v ∈ r.visits d base, v.depth ≤ r.options.maxDepth := by
  constructor
  · intro hall
    refine ⟨fun p hp => hall _ (followed_mem_events hp), fun v hv => depth_le_of_shallow ?_ hv⟩
    rw [shallow_iff]
    intro e he
    have hvisit := hall e he
    cases e with
    | overran v => cases hvisit
    | followed v reference fate => rfl
  · rintro ⟨hfolds, hdepth⟩ e he
    cases e with
    | overran v =>
        obtain ⟨hv, hdeep⟩ := overran_mem_events.mp he
        have hle := hdepth v hv
        omega
    | followed v reference fate =>
        obtain ⟨-, -, rfl⟩ := arises_events r d base _ he
        have hmem : (v, reference) ∈ (r.events d base).filterMap Event.followed? :=
          List.mem_filterMap.mpr ⟨_, he, rfl⟩
        exact hfolds _ ((followed_events_perm r d base).mem_iff.mp hmem)

theorem valid_plain_iff (hparents : d.hasParents = true) (base : String) :
    (r.plain d base).valid = true ↔ (∀ p ∈ r.references d base, r.folds p = true) ∧
      (∀ v ∈ r.visits d base, v.depth ≤ r.options.maxDepth) ∧
      (r.options.checkConsistency = true → (r.resolved d base).check = []) := by
  rw [plain, List.isEmpty_iff, findings, errorsOf_append, List.append_eq_nil_iff,
    errorsOf_notesOf_eq_nil_iff, forall_visit_iff, and_assoc, hparents, Bool.true_and]
  refine and_congr_right fun _ => and_congr_right fun _ => ?_
  cases r.options.checkConsistency with
  | false => simp [errorsOf]
  | true => simp [errorsOf_check]

theorem filter_errors_resolve (r : Resolver) (base : String) (cache : Option Cache)
    (hparents : d.hasParents = true) (hcheck : r.options.checkConsistency = true)
    (huncapped : r.options.maxErrors = none) {code : DiagnosticCode} (hcode : code.ofWalk = false) :
    let o := (r.resolve d base cache).outcome
    o.errors.filter (·.code == code) = o.resolved.check.filter (·.code == code) := by
  intro o
  have ho : o = (r.overlay cache).plain d base := r.outcome_resolve d base cache
  rw [ho]
  exact filter_errors_plain (r := r.overlay cache) huncapped hparents hcheck base hcode

end Resolver

/-- 見つけたことは、隠れもせず、二度数えられもしない。 -/
theorem reference_accounting (r : Resolver) (d : Document) (base : String) (cache : Option Cache)
    (hparents : d.hasParents = true) (huncapped : r.options.maxErrors = none) :
    let o := (r.resolve d base cache).outcome
    let overlay := r.overlay cache
    let references := overlay.references d base
    let visits := overlay.visits d base
    let notes := notesOf r.options.maxDepth (overlay.events d base)
    o.resolved = overlay.resolved d base ∧
      references.length =
        o.count .parentLoadError + o.count .circularInheritance + visits.length ∧
      (o.count .maxInheritanceDepth = visits.countP (·.depth == r.options.maxDepth + 1) ∧
        ∀ v ∈ visits, v.depth ≤ r.options.maxDepth + 1) ∧
      (o.count .circularInheritanceAllowed =
          (if r.options.allowCircular then references.countP overlay.closes else 0) ∧
        o.count .circularInheritance =
          (if r.options.allowCircular then 0 else references.countP overlay.closes)) ∧
      (o.errors = errorsOf notes ++ (if r.options.checkConsistency then o.resolved.check else []) ∧
        o.warnings = warningsOf notes) ∧
      (o.valid = true ↔ (∀ p ∈ references, overlay.folds p = true) ∧
        (∀ v ∈ visits, v.depth ≤ r.options.maxDepth) ∧
        (r.options.checkConsistency = true → o.resolved.check = [])) := by
  intro o overlay references visits notes
  have ho : o = overlay.plain d base := r.outcome_resolve d base cache
  have hover : overlay.options.maxErrors = none := huncapped
  rw [ho]
  refine ⟨rfl, Resolver.length_references hover d base, ⟨?_, ?_⟩, ⟨?_, ?_⟩, ?_, ?_⟩
  · exact Resolver.count_maxInheritanceDepth hover d base
  · intro v hv
    exact Resolver.depth_le_of_mem (r := overlay) hv
  · exact Resolver.count_circularInheritanceAllowed hover d base
  · exact Resolver.count_circularInheritance hover d base
  · exact Resolver.report_plain hover hparents base
  · exact Resolver.valid_plain_iff hparents base

/-- 根は `b` と、読み込めない `x` とを親とし、`b` は根と `c` とを親とする系譜。 -/
def Resolver.frayed : Resolver where
  load := Store.load { documents := ⟨[("b", { parents := ["a", "c"] }), ("c", {})]⟩ }
  addressing := ⟨id, fun reference _ => .ok reference⟩

theorem reference_accounting_frayed :
    let root : Document := { parents := ["b", "x"] }
    let o := (Resolver.frayed.resolve root "a" none).outcome
    let overlay := Resolver.frayed.overlay none
    root.hasParents = true ∧ Resolver.frayed.options.maxErrors = none ∧
      o.count .parentLoadError = 1 ∧ o.count .circularInheritance = 1 ∧
      (overlay.visits root "a").length = 2 ∧ (overlay.references root "a").length = 4 := by
  intro root o overlay
  have hload : o.count .parentLoadError = 1 := by decide +kernel
  have hcircular : o.count .circularInheritance = 1 := by decide +kernel
  have hvisits : (overlay.visits root "a").length = 2 := by decide +kernel
  obtain ⟨-, hbalance, -⟩ := reference_accounting .frayed root "a" none rfl rfl
  refine ⟨rfl, rfl, hload, hcircular, hvisits, ?_⟩
  exact hbalance.trans (by rw [hload, hcircular, hvisits])

end SpecLineage
