import SpecLineage.Proofs.Lineage.Trail

/-!
# 出来事と診断の対応

跡の診断は符号で出来事と対応し、検査の診断とは符号が重ならない。上限がなければ、見つけた診断はすべて結果に残る。
-/

namespace SpecLineage

/-! ## 検査の診断 -/

/-- 系譜をたどるときの診断の符号。 -/
def DiagnosticCode.ofWalk : DiagnosticCode → Bool
  | maxInheritanceDepth | circularInheritance | circularInheritanceAllowed | parentLoadError => true
  | duplicateId _ | duplicateEndpoint | missingDependency => false

/-- 検査の診断はすべて誤りであり、系譜をたどるときの符号を持たない。 -/
theorem of_mem_check {d : Document} {e : Diagnostic} (h : e ∈ d.check) :
    e.isError = true ∧ e.code.ofWalk = false := by
  simp only [Document.check, duplicateIds, duplicateRoutes, missingDependencies, List.mem_append,
    List.mem_map] at h
  rcases h with ((((⟨_, _, rfl⟩ | ⟨_, _, rfl⟩) | ⟨_, _, rfl⟩) | ⟨_, _, rfl⟩) | ⟨_, _, rfl⟩) | ⟨_, _, rfl⟩ <;>
    exact ⟨rfl, rfl⟩

theorem errorsOf_check (d : Document) : errorsOf d.check = d.check ∧ warningsOf d.check = [] := by
  rw [errorsOf, warningsOf, List.filter_eq_self, List.filter_eq_nil_iff]
  exact ⟨fun e he => (of_mem_check he).1, fun e he => by simp [(of_mem_check he).1]⟩

/-! ## 出来事の種類 -/

namespace Event

def isOverrun : Event → Bool
  | followed .. => false
  | overran _ => true

def isRejected : Event → Bool
  | followed _ _ (.rejected _) => true
  | _ => false

/-- 参照が解けないか、文書を読み込めなかった。 -/
def isFailed : Event → Bool
  | followed _ _ (.unresolved _) | followed _ _ (.unloaded ..) => true
  | _ => false

/-- たどっている場所へ、輪を断たずに戻った。 -/
def isReentry : Event → Bool
  | followed v _ (.unloaded l _) | followed v _ (.folded l _) => decide (l ∈ v.chain)
  | _ => false

def hasCode (code : DiagnosticCode) (e : Event) : Bool :=
  match code with
  | .maxInheritanceDepth => e.isOverrun
  | .circularInheritance => e.isRejected
  | .circularInheritanceAllowed => e.isReentry
  | .parentLoadError => e.isFailed
  | _ => false

theorem countP_reentry (v : Visit) (l : Location) (code : DiagnosticCode) :
    (Fate.notes.reentry v l).countP (·.code == code) =
      if code = .circularInheritanceAllowed ∧ l ∈ v.chain then 1 else 0 := by
  unfold Fate.notes.reentry
  by_cases hl : l ∈ v.chain
  · cases code <;> simp [hl, circularAllowed, Diagnostic.warning]
  · simp [hl]

theorem countP_notes (maxDepth : Nat) (e : Event) (code : DiagnosticCode) :
    (e.notes maxDepth).countP (·.code == code) = if e.hasCode code then 1 else 0 := by
  cases e with
  | overran v =>
      cases code <;> simp [notes, hasCode, isOverrun, isRejected, isReentry, isFailed, tooDeep,
        Diagnostic.error]
  | followed v reference fate =>
      cases fate with
      | unresolved fault =>
          cases code <;> simp [notes, Fate.notes, hasCode, isOverrun, isRejected, isReentry,
            isFailed, unresolved, Diagnostic.error]
      | rejected l =>
          cases code <;> simp [notes, Fate.notes, hasCode, isOverrun, isRejected, isReentry,
            isFailed, circular, Diagnostic.error]
      | unloaded l fault =>
          cases code <;> simp [notes, Fate.notes, hasCode, isOverrun, isRejected, isReentry,
            isFailed, unloaded, Diagnostic.error, countP_reentry]
      | folded l d =>
          cases code <;> simp [notes, Fate.notes, hasCode, isOverrun, isRejected, isReentry,
            isFailed, countP_reentry]

theorem hasCode_of_mem_notes {maxDepth : Nat} {e : Event} {x : Diagnostic}
    (hx : x ∈ e.notes maxDepth) : e.hasCode x.code = true := by
  have hcount := countP_notes maxDepth e x.code
  have hpos : 0 < (e.notes maxDepth).countP (·.code == x.code) :=
    List.countP_pos_iff.mpr ⟨x, hx, by simp⟩
  split at hcount
  · assumption
  · omega

theorem ofWalk_of_mem_notes {maxDepth : Nat} {e : Event} {x : Diagnostic}
    (hx : x ∈ e.notes maxDepth) : x.code.ofWalk = true := by
  have hhas := hasCode_of_mem_notes hx
  cases hcode : x.code with
  | duplicateId kind => rw [hcode] at hhas; cases hhas
  | duplicateEndpoint => rw [hcode] at hhas; cases hhas
  | missingDependency => rw [hcode] at hhas; cases hhas
  | _ => rfl

theorem exists_note_of_hasCode (maxDepth : Nat) {e : Event} {code : DiagnosticCode}
    (h : e.hasCode code = true) : ∃ x ∈ e.notes maxDepth, x.code = code := by
  have hcount := countP_notes maxDepth e code
  rw [if_pos h] at hcount
  have hpos : 0 < (e.notes maxDepth).countP (·.code == code) := by omega
  obtain ⟨x, hx, hcode⟩ := List.countP_pos_iff.mp hpos
  exact ⟨x, hx, eq_of_beq hcode⟩

/-- 循環を断たずにたどったことだけが警告である。 -/
theorem isError_of_mem_notes {maxDepth : Nat} {e : Event} {x : Diagnostic}
    (hx : x ∈ e.notes maxDepth) : x.isError = (x.code != .circularInheritanceAllowed) := by
  have hreentry : ∀ (v : Visit) (l : Location), x ∈ Fate.notes.reentry v l →
      x.isError = (x.code != .circularInheritanceAllowed) := by
    intro v l hx
    unfold Fate.notes.reentry at hx
    split at hx
    · rw [List.mem_singleton.mp hx]
      rfl
    · cases hx
  cases e with
  | overran v => rw [List.mem_singleton.mp hx]; rfl
  | followed v reference fate =>
      cases fate with
      | unresolved fault => rw [List.mem_singleton.mp hx]; rfl
      | rejected l => rw [List.mem_singleton.mp hx]; rfl
      | unloaded l fault =>
          rcases List.mem_append.mp hx with hx | hx
          · exact hreentry v l hx
          · rw [List.mem_singleton.mp hx]; rfl
      | folded l d => exact hreentry v l hx

end Event

theorem countP_notesOf (maxDepth : Nat) (es : List Event) (code : DiagnosticCode) :
    (notesOf maxDepth es).countP (·.code == code) = es.countP (Event.hasCode code) := by
  induction es with
  | nil => rfl
  | cons e es ih =>
      rw [notesOf, List.flatMap_cons, List.countP_append, Event.countP_notes, ← notesOf, ih,
        List.countP_cons, Nat.add_comm]

namespace Resolver

variable {r : Resolver} {d : Document} {base : String}

theorem mem_findings {x : Diagnostic} : x ∈ r.findings d base ↔
    (∃ event ∈ r.events d base, x ∈ event.notes r.options.maxDepth) ∨
      (d.hasParents && r.options.checkConsistency) = true ∧ x ∈ (r.resolved d base).check := by
  rw [findings, notesOf, List.mem_append, List.mem_flatMap, List.mem_ite_nil_right]

theorem plain_of_uncapped (h : r.options.maxErrors = none) (d : Document) (base : String) :
    (r.plain d base).errors = errorsOf (r.findings d base) ∧
      (r.plain d base).warnings = warningsOf (r.findings d base) := by
  simp [plain, h]

/-- 見つけた誤りは、結果に書き留めた誤りの後に、数だけを残した誤りを並べたものである。 -/
theorem exists_dropped (r : Resolver) (d : Document) (base : String) :
    ∃ dropped, errorsOf (r.findings d base) = (r.plain d base).errors ++ dropped ∧
      dropped.length = (r.plain d base).suppressed := by
  obtain ⟨dropped, hdropped⟩ := exists_capped_append r.options.maxErrors (errorsOf (r.findings d base))
  refine ⟨dropped, hdropped, ?_⟩
  have hlength := congrArg List.length hdropped
  rw [List.length_append] at hlength
  exact Nat.eq_sub_of_add_eq' hlength.symm

theorem report_plain (h : r.options.maxErrors = none) (hparents : d.hasParents = true)
    (base : String) : (r.plain d base).errors =
        errorsOf (notesOf r.options.maxDepth (r.events d base)) ++
          (if r.options.checkConsistency then (r.resolved d base).check else []) ∧
      (r.plain d base).warnings = warningsOf (notesOf r.options.maxDepth (r.events d base)) := by
  obtain ⟨herrors, hwarnings⟩ := plain_of_uncapped h d base
  obtain ⟨hcheck, hnone⟩ := errorsOf_check (r.resolved d base)
  rw [herrors, hwarnings, findings, hparents, Bool.true_and, errorsOf_append, warningsOf_append]
  cases r.options.checkConsistency with
  | false => exact ⟨rfl, List.append_nil _⟩
  | true =>
      simp only [↓reduceIte]
      rw [hcheck, hnone, List.append_nil]
      exact ⟨rfl, rfl⟩

theorem filter_errors_plain (h : r.options.maxErrors = none) (hparents : d.hasParents = true)
    (hcheck : r.options.checkConsistency = true) (base : String) {code : DiagnosticCode}
    (hcode : code.ofWalk = false) : (r.plain d base).errors.filter (·.code == code) =
      (r.resolved d base).check.filter (·.code == code) := by
  have hnotes : (errorsOf (notesOf r.options.maxDepth (r.events d base))).filter (·.code == code) =
      [] := by
    refine List.filter_eq_nil_iff.mpr fun x hx heq => ?_
    obtain ⟨e, -, hxe⟩ := List.mem_flatMap.mp (List.mem_of_mem_filter hx)
    have hwalk := Event.ofWalk_of_mem_notes hxe
    rw [eq_of_beq heq, hcode] at hwalk
    cases hwalk
  rw [(report_plain h hparents base).1, if_pos hcheck, List.filter_append, hnotes, List.nil_append]

/-- 検査の符号を除けば、結果の診断の数は、対応する出来事の数である。 -/
theorem count_plain (h : r.options.maxErrors = none) {code : DiagnosticCode}
    (hcode : code.ofWalk = true) :
    (r.plain d base).count code = (r.events d base).countP (Event.hasCode code) := by
  obtain ⟨herrors, hwarnings⟩ := plain_of_uncapped h d base
  have hsplit := List.countP_eq_countP_filter_add (r.findings d base) (·.code == code)
    Diagnostic.isError
  have hcheck : ∀ es : List Diagnostic, (∀ e ∈ es, e.code.ofWalk = false) →
      es.countP (·.code == code) = 0 := by
    intro es hes
    rw [List.countP_eq_zero]
    intro e he heq
    rw [← eq_of_beq heq, hes e he] at hcode
    cases hcode
  rw [Outcome.count, Outcome.diagnostics, List.countP_append, herrors, hwarnings, errorsOf,
    warningsOf, ← hsplit, findings, List.countP_append, countP_notesOf]
  split
  · rw [hcheck _ fun e he => (of_mem_check he).2, Nat.add_zero]
  · rfl

theorem mem_findings_of_mem_errors {e : Diagnostic} (he : e ∈ (r.plain d base).errors) :
    e ∈ r.findings d base := List.mem_of_mem_filter (mem_of_mem_capped he)

theorem exists_event_of_mem_findings {x : Diagnostic} (hx : x ∈ r.findings d base)
    (hcode : x.code.ofWalk = true) :
    ∃ event ∈ r.events d base, x ∈ event.notes r.options.maxDepth := by
  rcases mem_findings.mp hx with hnote | ⟨-, hcheck⟩
  · exact hnote
  · rw [(of_mem_check hcheck).2] at hcode
    cases hcode

theorem exists_finding_of_hasCode {event : Event} (hevent : event ∈ r.events d base)
    {code : DiagnosticCode} (h : event.hasCode code = true) :
    ∃ x ∈ r.findings d base, x.code = code ∧ x.isError = (code != .circularInheritanceAllowed) := by
  obtain ⟨x, hx, rfl⟩ := Event.exists_note_of_hasCode r.options.maxDepth h
  exact ⟨x, mem_findings.mpr (Or.inl ⟨event, hevent, hx⟩), rfl, Event.isError_of_mem_notes hx⟩

/-- 深さが上限を越えたという診断を見つけない。書き留めなかった診断も含む。 -/
def Shallow (r : Resolver) (d : Document) (base : String) : Prop :=
  ∀ x ∈ r.findings d base, x.code ≠ .maxInheritanceDepth

instance (r : Resolver) (d : Document) (base : String) : Decidable (r.Shallow d base) :=
  inferInstanceAs (Decidable (∀ x ∈ r.findings d base, x.code ≠ .maxInheritanceDepth))

theorem Shallow.errors (h : r.Shallow d base) :
    ∀ e ∈ (r.plain d base).errors, e.code ≠ .maxInheritanceDepth :=
  fun e he => h e (mem_findings_of_mem_errors he)

theorem shallow_iff (r : Resolver) (d : Document) (base : String) :
    r.Shallow d base ↔ ∀ event ∈ r.events d base, event.isOverrun = false := by
  constructor
  · intro h event hevent
    rw [Bool.eq_false_iff]
    intro hover
    have hhas : event.hasCode .maxInheritanceDepth = true := hover
    obtain ⟨x, hx, hcode, -⟩ := exists_finding_of_hasCode hevent hhas
    exact h x hx hcode
  · intro h x hx hcode
    have hwalk : x.code.ofWalk = true := by rw [hcode]; rfl
    obtain ⟨event, hevent, hnote⟩ := exists_event_of_mem_findings hx hwalk
    have hover := Event.hasCode_of_mem_notes hnote
    rw [hcode] at hover
    exact Bool.false_ne_true ((h event hevent).symm.trans hover)

end Resolver
end SpecLineage
