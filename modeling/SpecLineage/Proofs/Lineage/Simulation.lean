import SpecLineage.Proofs.Lineage.Fetch
import SpecLineage.Proofs.Lineage.Report
import SpecLineage.Proofs.Lineage.Trail

/-!
# 解決は跡のとおりに進む

控えと蓄えを使う解決は、初めの蓄えを読み込みに重ねたときの跡のとおりに進む。控えの診断は跡の診断であり、控えた
文書と蓄えは、跡の場所に順に読み込みを求めたものである。
-/

namespace SpecLineage

namespace Walk

variable {load : Loader} {cache : Option Cache} {asked : List Location} {w : Walk}

@[simp] theorem stack_fetchAll (load : Loader) (w : Walk) (ls : List Location) :
    (w.fetchAll load ls).session.stack = w.session.stack := by
  induction ls generalizing w with
  | nil => rfl
  | cons l ls ih => exact (ih (w.fetch load l).2).trans (w.fetched load l).stack

/-- 跡のとおりに進んだ後の控え。 -/
def after (load : Loader) (maxDepth : Nat) (w : Walk) (es : List Event) : Walk :=
  (w.fetchAll load (askedOf es)).recordAll (notesOf maxDepth es)

theorem Ledger.after (h : Ledger load cache asked w) (maxDepth : Nat) (es : List Event) :
    Ledger load cache (asked ++ askedOf es) (w.after load maxDepth es) :=
  (h.fetchAll _).onSession (Session.aside_recordAll _)

@[simp] theorem stack_after (load : Loader) (maxDepth : Nat) (w : Walk) (es : List Event) :
    (w.after load maxDepth es).session.stack = w.session.stack :=
  (Session.stack_recordAll _ _).trans (stack_fetchAll load w _)

theorem record_enter (w : Walk) (l : Location) (d : Diagnostic) :
    (w.enter l).record d = (w.record d).enter l :=
  congrArg (fun s => { w with session := s }) (Session.record_enter w.session l d)

theorem recordAll_enter (w : Walk) (l : Location) (ds : List Diagnostic) :
    (w.enter l).recordAll ds = (w.recordAll ds).enter l := by
  induction ds generalizing w with
  | nil => rfl
  | cons d ds ih => exact (congrArg (recordAll · ds) (w.record_enter l d)).trans (ih (w.record d))

theorem after_append (load : Loader) (maxDepth : Nat) (w : Walk) (es fs : List Event) :
    w.after load maxDepth (es ++ fs) = (w.after load maxDepth es).after load maxDepth fs := by
  simp only [after, askedOf, notesOf, List.filterMap_append, List.flatMap_append, fetchAll_append,
    recordAll, fetchAll_onSession (Session.aside_recordAll _)]
  simp only [onSession, Session.recordAll, List.foldl_append]

theorem after_enter (load : Loader) (maxDepth : Nat) (w : Walk) (l : Location) (es : List Event) :
    (w.enter l).after load maxDepth es = (w.after load maxDepth es).enter l := by
  have hf := fetchAll_onSession (Session.aside_enter l) load w (askedOf es)
  exact (congrArg (recordAll · (notesOf maxDepth es)) hf).trans (recordAll_enter _ _ _)

theorem Ledger.fetch_recordAll_enter (h : Ledger load cache asked w) (ds : List Diagnostic)
    (l m : Location) : ((w.recordAll ds).enter m).fetch load l =
      (load.overlay cache l, ((w.fetch load l).2.recordAll ds).enter m) := by
  have henter := fetch_onSession (Session.aside_enter m) load (w.recordAll ds) l
  have hrecord := fetch_onSession (Session.aside_recordAll ds) load w l
  rw [← h.fetch_fst l]
  exact henter.trans (by rw [recordAll, hrecord]; rfl)

theorem after_unloaded (load : Loader) (maxDepth : Nat) (w : Walk) (v : Visit) (reference : String)
    (l : Location) (fault : LoadFault) :
    w.after load maxDepth [.followed v reference (.unloaded l fault)] =
      ((w.fetch load l).2.recordAll (Fate.notes.reentry v l)).record (unloaded reference l fault) := by
  simp [after, fetchAll, askedOf, notesOf, Event.asked?, Event.notes, Fate.asked?, Fate.notes,
    recordAll, onSession, record, Session.recordAll]

theorem after_folded (load : Loader) (maxDepth : Nat) (w : Walk) (v : Visit) (reference : String)
    (l : Location) (d : Document) :
    w.after load maxDepth [.followed v reference (.folded l d)] =
      (w.fetch load l).2.recordAll (Fate.notes.reentry v l) := by
  simp [after, fetchAll, askedOf, notesOf, Event.asked?, Event.notes, Fate.asked?, Fate.notes]

@[simp] theorem enter_leave (w : Walk) (l : Location) : (w.enter l).leave = w := by
  simp [enter, leave, Session.enter, Session.leave]

end Walk

/-! ## 跡との一致 -/

/-- 蓄えを先に見る解決。 -/
def Resolver.overlay (r : Resolver) (cache : Option Cache) : Resolver :=
  { r with load := r.load.overlay cache }

namespace Resolver

variable {r : Resolver} {cache : Option Cache} {asked : List Location} {w : Walk}

theorem inProgress_of_stack {v : Visit} (hs : w.session.stack = v.chain) (l : Location) :
    w.session.inProgress l = decide (l ∈ v.chain) := by
  simp [Session.inProgress, hs]

theorem cycle_of_stack {v : Visit} (hs : w.session.stack = v.chain) (l : Location) :
    w.session.cycle l = v.cycle l := by
  simp [Session.cycle, Visit.cycle, hs]

theorem follow_of_not_rejected (visit : Document → Location → Walk → Document × Walk) {v : Visit}
    (result : Document) (reference : String) (hs : w.session.stack = v.chain) {l : Location}
    (hr : r.addressing.resolve reference v.location = .ok l)
    (hcut : ¬(l ∈ v.chain ∧ r.options.allowCircular = false)) :
    r.follow visit v.location (result, w) reference =
      match ((w.recordAll (Fate.notes.reentry v l)).enter l).fetch r.load l with
      | (.error fault, w) => (result, (w.record (unloaded reference l fault)).leave)
      | (.ok d, w) =>
          (Document.merge r.options.strategy (visit d l w).1 result, (visit d l w).2.leave) := by
  have hin := inProgress_of_stack hs l
  by_cases hl : l ∈ v.chain
  · have hallow : r.options.allowCircular = true := by simpa [hl] using hcut
    simp only [follow, hr, hin, hl, hallow, decide_true, Bool.not_true, Bool.and_false,
      Bool.false_eq_true, ↓reduceIte, Fate.notes.reentry, cycle_of_stack hs]
    rfl
  · simp only [follow, hr, hin, hl, decide_false, Bool.false_and, Bool.false_eq_true, ↓reduceIte,
      Fate.notes.reentry]
    rfl

section Follow

variable {visit : Document → Location → Walk → Document × Walk} {sub : Visit → Document}
  {events : Visit → List Event}

/-- 入った先を訪ねて出れば、そこまでの跡に、訪ねた先の跡が続く。 -/
theorem visit_folded
    (ih : ∀ (v : Visit) (asked : List Location) (w : Walk), w.Ledger r.load cache asked →
      w.session.stack = v.chain →
      visit v.document v.location w = (sub v, w.after r.load r.options.maxDepth (events v)))
    (v : Visit) (reference : String) (hw : w.Ledger r.load cache asked)
    (hs : w.session.stack = v.chain) (l : Location) (d : Document) :
    visit d l (((w.fetch r.load l).2.recordAll (Fate.notes.reentry v l)).enter l) =
      (sub (v.parent l d), (w.after r.load r.options.maxDepth
        (.followed v reference (.folded l d) :: events (v.parent l d))).enter l) := by
  have hentered := (hw.after r.options.maxDepth
    [.followed v reference (.folded l d)]).onSession (Session.aside_enter l)
  have hsub := ih (v.parent l d) _ _ hentered (by simp [Walk.onSession, Session.enter, hs])
  rw [← Walk.after_folded r.load r.options.maxDepth w v reference l d]
  refine hsub.trans (congrArg (Prod.mk _) ?_)
  exact (Walk.after_enter _ _ _ _ _).trans (congrArg (Walk.enter · l) (Walk.after_append _ _ _ _ _).symm)

theorem follow_eq
    (ih : ∀ (v : Visit) (asked : List Location) (w : Walk), w.Ledger r.load cache asked →
      w.session.stack = v.chain →
      visit v.document v.location w = (sub v, w.after r.load r.options.maxDepth (events v)))
    (v : Visit) (result : Document) (reference : String) (hw : w.Ledger r.load cache asked)
    (hs : w.session.stack = v.chain) :
    r.follow visit v.location (result, w) reference =
      ((r.overlay cache).foldParent sub v result reference,
        w.after r.load r.options.maxDepth ((r.overlay cache).branch events v reference)) := by
  cases hr : r.addressing.resolve reference v.location with
  | error fault =>
      have hfate : (r.overlay cache).fate v reference = .unresolved fault := by simp [fate, overlay, hr]
      simp only [follow, hr, foldParent, branch, hfate]
      rfl
  | ok l =>
      by_cases hcut : l ∈ v.chain ∧ r.options.allowCircular = false
      · have hfate : (r.overlay cache).fate v reference = .rejected l := by
          simp [fate, overlay, hr, hcut]
        simp only [follow, hr, foldParent, branch, hfate, inProgress_of_stack hs,
          cycle_of_stack hs, hcut, decide_true, Bool.not_false, Bool.and_self, ↓reduceIte]
        rfl
      · -- 輪が閉じていても断たないので、警告を控えてから場所に入り、文書を取り出す。
        rw [follow_of_not_rejected visit result reference hs hr hcut, hw.fetch_recordAll_enter]
        cases ha : r.load.overlay cache l with
        | error fault =>
            have hfate : (r.overlay cache).fate v reference = .unloaded l fault := by
              simp [fate, hr, hcut, ha, overlay]
            simp only [foldParent, branch, hfate, Fate.next?]
            refine Prod.ext rfl ?_
            rw [Walk.after_unloaded]
            exact (congrArg Walk.leave (Walk.record_enter _ l _)).trans (Walk.enter_leave _ l)
        | ok d =>
            have hfate : (r.overlay cache).fate v reference = .folded l d := by
              simp [fate, hr, hcut, ha, overlay]
            simp only [foldParent, branch, hfate, Fate.next?, visit_folded ih v reference hw hs,
              Walk.enter_leave]
            rfl

end Follow

theorem visit_eq (left : Nat) : ∀ (v : Visit) (asked : List Location) (w : Walk),
    w.Ledger r.load cache asked → w.session.stack = v.chain →
    r.visit left v.document v.location w = ((r.overlay cache).compose left v,
      w.after r.load r.options.maxDepth ((r.overlay cache).trail left v)) := by
  induction left with
  | zero => intro v asked w hw hs; rfl
  | succ left ih =>
      intro v asked w hw hs
      have hfold : ∀ (references : List String) (result : Document) (asked : List Location)
          (w : Walk), w.Ledger r.load cache asked → w.session.stack = v.chain →
          references.foldl (r.follow (r.visit left) v.location) (result, w) =
            (references.foldl ((r.overlay cache).foldParent ((r.overlay cache).compose left) v) result,
              w.after r.load r.options.maxDepth
                (references.flatMap ((r.overlay cache).branch ((r.overlay cache).trail left) v))) := by
        intro references
        induction references with
        | nil => intro result asked w hw hs; rfl
        | cons reference references ihr =>
            intro result asked w hw hs
            rw [List.foldl_cons, follow_eq ih v result reference hw hs, List.flatMap_cons,
              Walk.after_append]
            exact ihr _ _ _ (hw.after _ _) (by simpa using hs)
      exact hfold v.document.parents v.document asked w hw hs

/-! ## 解決の結果 -/

theorem asked_filter_eq (left : Nat) (v : Visit) :
    (askedOf (r.trail left v)).filter (fun l => (r.load l).toOption.isSome) =
      (visitsOf (r.trail left v)).map Visit.location := by
  have harises := arises_trail (r := r) left v
  generalize r.trail left v = es at harises
  induction es with
  | nil => rfl
  | cons e es ih =>
      have hes := ih fun e he => harises e (List.mem_cons_of_mem _ he)
      cases e with
      | overran v => exact hes
      | followed v reference fate =>
          obtain ⟨-, -, hfate⟩ := harises _ List.mem_cons_self
          cases fate with
          | unresolved fault => exact hes
          | rejected l => exact hes
          | unloaded l fault =>
              obtain ⟨-, -, hl⟩ := hfate ▸ r.fate_spec v reference
              have hasked : askedOf (.followed v reference (.unloaded l fault) :: es) =
                l :: askedOf es := rfl
              rw [hasked, List.filter_cons, if_neg (by simp [hl, Except.toOption])]
              exact hes
          | folded l d =>
              obtain ⟨-, -, hl⟩ := hfate ▸ r.fate_spec v reference
              have hasked : askedOf (.followed v reference (.folded l d) :: es) =
                l :: askedOf es := rfl
              have hvisits : visitsOf (.followed v reference (.folded l d) :: es) =
                v.parent l d :: visitsOf es := rfl
              rw [hasked, hvisits, List.filter_cons, if_pos (by simp [hl, Except.toOption]), hes]
              rfl

theorem events_of_no_parents {d : Document} (h : d.hasParents = false) (base : String) :
    r.events d base = [] ∧ r.resolved d base = d := by
  have hparents : d.parents = [] := by simpa [Document.hasParents] using h
  simp [events, resolved, trail, compose, root, hparents]

/-- 根に入ったときの控え。 -/
def entered (r : Resolver) (root : Location) (cache : Option Cache) : Walk :=
  Walk.enter { session := { maxErrors := r.options.maxErrors }, cache } root

theorem ledger_entered (r : Resolver) (root : Location) (cache : Option Cache) :
    (r.entered root cache).Ledger r.load cache [] :=
  Walk.Ledger.onSession (w := { session := { maxErrors := r.options.maxErrors }, cache })
    (Session.aside_enter root) (Walk.Ledger.start _ rfl rfl)

theorem visit_root (r : Resolver) (d : Document) (base : String) (cache : Option Cache) :
    r.visit (r.options.maxDepth + 1) d (r.addressing.normalize base)
        (r.entered (r.addressing.normalize base) cache) =
      ((r.overlay cache).resolved d base,
        (r.entered (r.addressing.normalize base) cache).after r.load r.options.maxDepth
          ((r.overlay cache).events d base)) :=
  visit_eq (r.options.maxDepth + 1) (r.root d base) [] _ (r.ledger_entered _ cache) rfl

theorem recorded_after (r : Resolver) (root : Location) (cache : Option Cache) (es : List Event) :
    ((r.entered root cache).after r.load r.options.maxDepth es).session.Recorded r.options.maxErrors
      (notesOf r.options.maxDepth es) := by
  have hstart : (r.entered root cache).session.Recorded r.options.maxErrors [] :=
    Session.Recorded.start _ rfl rfl rfl rfl
  exact (Walk.recorded_fetchAll hstart r.load (askedOf es)).recordAll (notesOf r.options.maxDepth es)

/-- 見つけた診断を控え終えた控えから、解決の結果が決まる。 -/
theorem plain_of_session {d : Document} {base : String} {s : Session}
    (hs : s.Recorded r.options.maxErrors (r.findings d base))
    (ha : s.ancestors = ((r.visits d base).map Visit.location).eraseDups) :
    r.plain d base =
      { valid := s.isValid
        errors := s.errors
        warnings := s.warnings
        resolved := r.resolved d base
        ancestors := s.ancestors
        suppressed := s.suppressed } := by
  simp only [plain, hs.isValid, hs.errors, hs.warnings, hs.suppressed, ha]

/-- 解決の結果は、文書をたどるたびに読み込んだ結果と等しい。 -/
theorem outcome_resolve (r : Resolver) (d : Document) (base : String) (cache : Option Cache) :
    (r.resolve d base cache).outcome = (r.overlay cache).plain d base := by
  cases hd : d.hasParents with
  | false =>
      obtain ⟨hevents, hresolved⟩ := (r.overlay cache).events_of_no_parents hd base
      have hfindings : (r.overlay cache).findings d base = [] := by simp [findings, hevents, hd, notesOf]
      rw [plain_of_session (s := { maxErrors := r.options.maxErrors })]
      · simp [resolve, hd, hresolved, Session.isValid]
      · rw [hfindings]
        exact Session.Recorded.start _ rfl rfl rfl rfl
      · simp [visits, hevents, visitsOf]
  | true =>
      have hvisit := r.visit_root d base cache
      have hledger := (r.ledger_entered (r.addressing.normalize base) cache).after
        r.options.maxDepth ((r.overlay cache).events d base)
      have hrecorded := r.recorded_after (r.addressing.normalize base) cache
        ((r.overlay cache).events d base)
      generalize (r.entered (r.addressing.normalize base) cache).after r.load
        r.options.maxDepth ((r.overlay cache).events d base) = w at hvisit hledger hrecorded
      have hancestors : w.session.ancestors =
          (((r.overlay cache).visits d base).map Visit.location).eraseDups := by
        rw [hledger.ancestors, List.nil_append]
        exact congrArg List.eraseDups
          ((r.overlay cache).asked_filter_eq (r.options.maxDepth + 1) (r.root d base))
      rw [entered] at hvisit
      simp only [resolve, hd, ↓reduceIte, hvisit]
      cases hc : r.options.checkConsistency with
      | false =>
          refine (plain_of_session ?_ hancestors).symm
          simpa [findings, overlay, hd, hc] using hrecorded
      | true =>
          refine (plain_of_session ?_ ?_).symm
          · simpa [findings, overlay, hd, hc] using hrecorded.recordAll _
          · exact ((Session.aside_recordAll _).ancestors w.session).trans hancestors

/-- 根に入り、跡の場所を順に取り出した後の控え。 -/
def fetchedWalk (r : Resolver) (d : Document) (base : String) (cache : Option Cache) : Walk :=
  (r.entered (r.addressing.normalize base) cache).fetchAll r.load
    (askedOf ((r.overlay cache).events d base))

/-- 解決の後の蓄えと、読み込みを頼んだ場所とは、跡の場所を順に取り出した後のものである。 -/
theorem fetched_resolve (r : Resolver) (d : Document) (base : String) (cache : Option Cache) :
    (r.resolve d base cache).cache = (r.fetchedWalk d base cache).cache ∧
      (r.resolve d base cache).requests = (r.fetchedWalk d base cache).requests := by
  cases hd : d.hasParents with
  | false =>
      obtain ⟨hevents, -⟩ := (r.overlay cache).events_of_no_parents hd base
      have hwalk : r.fetchedWalk d base cache = r.entered (r.addressing.normalize base) cache := by
        simp only [fetchedWalk, hevents, askedOf, List.filterMap_nil, Walk.fetchAll, List.foldl_nil]
      simp [resolve, hd, hwalk, entered, Walk.enter]
  | true =>
      -- 診断を控えても、蓄えと頼んだ場所は変わらない。
      have hvisit := r.visit_root d base cache
      simp only [resolve, hd, ↓reduceIte]
      exact ⟨congrArg (fun p => p.2.cache) hvisit, congrArg (fun p => p.2.requests) hvisit⟩

theorem ledger_resolve (r : Resolver) (d : Document) (base : String) (cache : Option Cache) :
    ∃ w : Walk, w.Ledger r.load cache (askedOf ((r.overlay cache).events d base)) ∧
      (r.resolve d base cache).cache = w.cache ∧
      (r.resolve d base cache).requests = w.requests :=
  ⟨r.fetchedWalk d base cache, (r.ledger_entered (r.addressing.normalize base) cache).fetchAll _,
    r.fetched_resolve d base cache⟩

end Resolver
end SpecLineage
